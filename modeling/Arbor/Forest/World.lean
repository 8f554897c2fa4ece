import Arbor.Forest.Edit

/-!
A registry together with a forest of nodes of its types, and the nodes that stand in for what
could not be built: placeholders for sources that nothing maps, and error nodes for failures.
-/
namespace Arbor

namespace Kind

/-- The type that placeholders extend. -/
def genericNode : Kind := { typeName := "sylva_tree::node::GenericNode", qualifiedName := ⟨"sylva", "GenericNode"⟩ }

/-- The type of error nodes: the whole failure, its root cause and the type that was built. -/
def errorNode : Kind := {
  typeName := "sylva_tree::node::ErrorNode"
  qualifiedName := ⟨"sylva", "ErrorNode"⟩
  properties := [.attr "message" "string", .attr "cause" "string", .attr "source_type" "string"] }

end Kind

/-- The kinds that every forest may need. -/
def Family.builtin : Family := ⟨[.genericNode, .errorNode]⟩

structure World where
  registry : Registry := {}
  forest : Forest := {}
deriving Inhabited

namespace World

/-- Adds a node of a registered type. -/
def createOf (w : World) (d : Descriptor) : NodeId × World :=
  let (id, forest) := w.forest.create d
  (id, { w with forest })

/-- Registers a kind on first use. -/
def register (w : World) (family : Family) (k : Kind) : Except SchemaError Descriptor × World :=
  let (answer, registry) := w.registry.register family k
  (answer, { w with registry })

/-- Adds a node of a kind. -/
def create (w : World) (family : Family) (k : Kind) : Except ForestError NodeId × World :=
  match w.register family k with
  | (.error e, w) => (.error (.schema e), w)
  | (.ok d, w) =>
      let (id, w) := w.createOf d
      (.ok id, w)

/-- Adds a node of the type with this name. -/
def createNamed (w : World) (name : QualifiedName) : Except ForestError NodeId × World :=
  match w.registry.lookup name with
  | .error e => (.error (.schema e), w)
  | .ok d =>
      let (id, w) := w.createOf d
      (.ok id, w)

/-- The package of placeholder types, in which no other type lies by chance. -/
def placeholderPackage : String := "sylva.unmapped"

/-- Adds a node that stands for a source type without a mapping. -/
def createPlaceholder (w : World) (sourceType : String) : Except ForestError NodeId × World :=
  match w.register .builtin .genericNode with
  | (.error e, w) => (.error (.schema e), w)
  | (.ok base, w) =>
      let (d, registry) :=
        w.registry.registerPlaceholder ⟨placeholderPackage, sourceType⟩ sourceType (some base)
      let (id, w) := { w with registry }.createOf d
      (.ok id, w)

/-- Writes attributes one after the other. -/
def setProperties (f : Forest) (id : NodeId) : List (String × Value) → Except ForestError Forest
  | [] => .ok f
  | (name, v) :: rest => (f.setProperty id name v).bind fun f => setProperties f id rest

/-- Adds a node that stands for a failure. -/
def createError (w : World) (message sourceType : String) : Except ForestError NodeId × World :=
  match w.create .builtin .errorNode with
  | (.error e, w) => (.error e, w)
  | (.ok id, w) =>
      match setProperties w.forest id
          [("message", .string message), ("source_type", .string sourceType)] with
      | .error e => (.error e, w)
      | .ok forest => (.ok id, { w with forest })

end World

namespace Forest

/-- Records the root cause of a failure on an error node. -/
def setCause (f : Forest) (id : NodeId) (cause : String) : Except ForestError Forest :=
  f.setProperty id "cause" (.string cause)

/-- The text of an attribute of an error node. -/
def errorPart (f : Forest) (id : NodeId) (name : String) : Option String :=
  if f.isKind id .errorNode then
    match f.property id name with
    | .ok (some v) => v.asString
    | _ => none
  else none

def errorMessage (f : Forest) (id : NodeId) : Option String := f.errorPart id "message"
def errorCause (f : Forest) (id : NodeId) : Option String := f.errorPart id "cause"

end Forest

end Arbor
