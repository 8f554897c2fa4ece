import Arbor.Schema.Inheritance
import Arbor.Schema.Kind
import Arbor.Table

/-!
The registry of node types. Types are found by qualified name and, if a kind defined them, by
kind. A name that two types want goes as the conflict policy says, except that a placeholder
gives way to every other type. Supertypes are registered before the types that extend them.
A registration that fails may still have registered supertypes and recorded extensions, so each
operation gives the registry it leaves beside its answer.
-/
namespace Arbor

/-- Two types that want one name. -/
structure Conflict where
  qualifiedName : QualifiedName
  existing : Binding
  incoming : Binding
deriving DecidableEq, Inhabited

inductive Resolution where
  | fail
  | overwrite
  /-- Keep the old type and send the new binding to it. -/
  | keepExisting
deriving DecidableEq, Inhabited

inductive ConflictPolicy where
  | fail
  | overwrite
  | custom (resolve : Conflict → Resolution)

namespace ConflictPolicy

instance : Inhabited ConflictPolicy := ⟨.fail⟩

def resolve : ConflictPolicy → Conflict → Resolution
  | .fail, _ => .fail
  | .overwrite, _ => .overwrite
  | .custom decide, c => decide c

def isCustom : ConflictPolicy → Bool
  | .custom _ => true
  | _ => false

def listing : ConflictPolicy → String
  | .fail => "Fail"
  | .overwrite => "WarnAndOverwrite"
  | .custom _ => "Custom(..)"

/-- The policy as a registry's configuration shows it. -/
def configListing (p : ConflictPolicy) : String :=
  Text.fields "RegistryConfig" [("conflict_policy", p.listing)]

end ConflictPolicy

structure Registry where
  byName : Table QualifiedName Descriptor := ∅
  /-- Descriptors by the type name of a kind. -/
  byKind : Table String Descriptor := ∅
  graph : InheritanceGraph := {}
  policy : ConflictPolicy := .fail
  /-- The serial number of the next descriptor. -/
  next : Nat := 0
  /-- The conflicts that a custom policy was asked about. -/
  asked : List Conflict := []
deriving Inhabited

namespace Registry

def empty (policy : ConflictPolicy) : Registry := { policy }

def get? (r : Registry) (name : QualifiedName) : Option Descriptor := r.byName.get? name
def getKind? (r : Registry) (k : Kind) : Option Descriptor := r.byKind.get? k.typeName
def contains (r : Registry) (name : QualifiedName) : Bool := r.byName.contains name
def size (r : Registry) : Nat := r.byName.size

def lookup (r : Registry) (name : QualifiedName) : Except SchemaError Descriptor :=
  match r.get? name with
  | some d => .ok d
  | none => .error (.notFound name)

/-- All types by name. -/
def descriptors (r : Registry) : List Descriptor :=
  r.byName.values.mergeSort fun d e => d.qualifiedName.le e.qualifiedName

/-- Makes `d` the type of its kind, if a kind defined it. -/
def indexByKind (r : Registry) (d : Descriptor) : Registry :=
  match d.binding with
  | .kind t => { r with byKind := r.byKind.insert t d }
  | _ => r

/-- Gives the name of `d` to `d`. -/
def store (r : Registry) (d : Descriptor) : Registry :=
  { r with byName := r.byName.insert d.qualifiedName d, next := r.next + 1 }.indexByKind d

/-- Asks the policy, which remembers the question if it is a custom one. -/
def decide (r : Registry) (c : Conflict) : Resolution × Registry :=
  (r.policy.resolve c, if r.policy.isCustom then { r with asked := r.asked ++ [c] } else r)

/-- Binds a new type to its name, or gives the type that keeps it. -/
def bind (r : Registry) (name : QualifiedName) (properties : List Property)
    (parent : Option Descriptor) (binding : Binding) : Except SchemaError Descriptor × Registry :=
  let fresh : Descriptor :=
    ⟨⟨r.next, name, properties, binding⟩, (parent.map Descriptor.chain).getD []⟩
  match r.get? name with
  | none => (.ok fresh, r.store fresh)
  | some existing =>
      if existing.binding = binding then (.ok existing, r.indexByKind existing)
      else if existing.isPlaceholder then (.ok fresh, r.store fresh)
      else
        let (resolution, r) := r.decide ⟨name, existing.binding, binding⟩
        match resolution with
        | .fail => (.error (.conflict name existing.binding binding), r)
        | .keepExisting =>
            (.ok existing, match binding with
              | .kind t => { r with byKind := r.byKind.insert t existing }
              | _ => r)
        | .overwrite =>
            let r := match existing.binding with
              | .kind t => { r with byKind := r.byKind.erase t }
              | _ => r
            (.ok fresh, r.store fresh)

/-- The name and the binding of a declared supertype. -/
def parentIdentity : Parent → QualifiedName × Binding
  | .kind k => (k.qualifiedName, .kind k.typeName)
  | .descriptor d => (d.qualifiedName, d.binding)

/-- The supertype of a type under its own name: there is one only where a placeholder holds
the name. -/
def promotedParent (r : Registry) (name : QualifiedName) (binding : Binding) (parent : Parent) :
    Except SchemaError Descriptor :=
  match r.get? name with
  | none => .error (.redefinition name (parentIdentity parent).2 binding)
  | some existing =>
      if existing.isPlaceholder then
        match parent with
        | .descriptor declared => .ok declared
        | .kind _ => .ok existing
      else .error (.redefinition name existing.binding binding)

/-- The descriptor of a declared supertype, with `registerKind` for kinds. The extension is
recorded before the supertype is registered. -/
def resolveParent (registerKind : Kind → Registry → Except SchemaError Descriptor × Registry)
    (name : QualifiedName) (binding : Binding) (parent : Option Parent) (r : Registry) :
    Except SchemaError (Option Descriptor) × Registry :=
  match parent with
  | none => (.ok none, r)
  | some parent =>
      let parentName := (parentIdentity parent).1
      if parentName = name then ((r.promotedParent name binding parent).map some, r)
      else if r.graph.wouldCreateCycle name parentName then
        (.error (.circularInheritance name parentName), r)
      else
        let r := { r with graph := r.graph.addEdge name parentName }
        match parent with
        | .descriptor d => (.ok (some d), r)
        | .kind k =>
            let (answer, r) := registerKind k r
            (answer.map some, r)

/-- Registers a definition, with `registerKind` for the kinds it extends. -/
def defineWith (registerKind : Kind → Registry → Except SchemaError Descriptor × Registry)
    (definition : Definition) (binding : Binding) (r : Registry) :
    Except SchemaError Descriptor × Registry :=
  match resolveParent registerKind definition.qualifiedName binding definition.parent r with
  | (.error e, r) => (.error e, r)
  | (.ok parent, r) =>
      match mergeProperties definition.qualifiedName
          ((parent.map (·.properties)).getD []) definition.properties with
      | .error e => (.error e, r)
      | .ok properties => r.bind definition.qualifiedName properties parent binding

/-- Registers a kind through at most `fuel` extensions. -/
def registerWithin (family : Family) :
    Nat → Kind → Registry → Except SchemaError Descriptor × Registry
  | 0, k, r => (.error (.circularInheritance k.qualifiedName k.qualifiedName), r)
  | fuel + 1, k, r =>
      match r.getKind? k with
      | some d => (.ok d, r)
      | none =>
          defineWith (registerWithin family fuel) (k.definition family) (.kind k.typeName) r

/-- The type of a kind, registered with its supertypes on first use. The names along a chain of
extensions differ, so a chain is no longer than the family. -/
def register (r : Registry) (family : Family) (k : Kind) :
    Except SchemaError Descriptor × Registry :=
  registerWithin family (family.kinds.length + 1) k r

/-- Registers a definition under the given binding. -/
def define (r : Registry) (family : Family) (definition : Definition) (binding : Binding) :
    Except SchemaError Descriptor × Registry :=
  defineWith (registerWithin family (family.kinds.length + 1)) definition binding r

/-- What holds the name, or else a new placeholder for it. -/
def registerPlaceholder (r : Registry) (name : QualifiedName) (sourceType : String)
    (parent : Option Descriptor) : Descriptor × Registry :=
  match r.get? name with
  | some d => (d, r)
  | none =>
      let d : Descriptor :=
        ⟨⟨r.next, name, ((parent.map (·.properties)).getD []).map Property.asInherited,
          .placeholder sourceType⟩, (parent.map Descriptor.chain).getD []⟩
      (d, r.store d)

/-- Appends a property to a registered type. Nodes made earlier keep their type as it was. -/
def registerProperty (r : Registry) (name : QualifiedName) (property : Property) :
    Except SchemaError Descriptor × Registry :=
  match r.get? name with
  | none => (.error (.notFound name), r)
  | some current =>
      if (current.property? property.name).isSome then
        (.error (.duplicateProperty name property.name), r)
      else
        let updated : Descriptor :=
          { current with serial := r.next, properties := current.properties ++ [property] }
        (.ok updated, r.store updated)

def listing (r : Registry) : String :=
  Text.fields "SchemaRegistry" [("types", toString r.size), ("config", r.policy.configListing)]

end Registry

end Arbor
