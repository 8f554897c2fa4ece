import Arbor.Schema.Name
import Arbor.Text.Listing

/-!
Descriptions of node types. A type has properties in a fixed order, a binding that says what
defined it, and a chain of supertypes. Each description that a registry makes carries a serial
number, so two of them with the same content stay apart.
-/
namespace Arbor

/-- What a property holds. -/
inductive PropertyKind where
  | attr
  | child
  | reference
deriving DecidableEq, Inhabited

namespace PropertyKind

def name : PropertyKind → String
  | .attr => "Attribute"
  | .child => "Child"
  | .reference => "Reference"

end PropertyKind

structure Property where
  name : String
  kind : PropertyKind
  /-- Whether the property holds a collection. -/
  multiple : Bool := false
  /-- The type of its content, for readers. -/
  declaredType : Option String := none
  /-- Whether the property came from a supertype. -/
  inherited : Bool := false
deriving DecidableEq, Inhabited

namespace Property

def isChild (p : Property) : Bool := p.kind = .child
def isReference (p : Property) : Bool := p.kind = .reference

def attr (name type : String) : Property :=
  { name, kind := .attr, declaredType := some type }

def child (name type : String) : Property := { name, kind := .child, declaredType := some type }

def children (name type : String) : Property :=
  { name, kind := .child, multiple := true, declaredType := some type }

def reference (name type : String) : Property :=
  { name, kind := .reference, declaredType := some type }

def asInherited (p : Property) : Property := { p with inherited := true }

/-- Writes `p` over the property of its name, or appends it. -/
def put (p : Property) : List Property → List Property
  | [] => [p]
  | q :: rest => if q.name = p.name then p :: rest else q :: put p rest

def listing (p : Property) : String :=
  Text.fields "PropertyDescriptor" [
    ("name", Text.quoted p.name),
    ("kind", p.kind.name),
    ("multiple", Text.truth p.multiple),
    ("declared_type", Text.optional Text.quoted p.declaredType),
    ("inherited", Text.truth p.inherited)]

end Property

/-- What a type was defined by. -/
inductive Binding where
  | kind (typeName : String)
  | dynamic (key : String)
  /-- Made for a source type that nothing maps. -/
  | placeholder (sourceType : String)
deriving DecidableEq, Inhabited

namespace Binding

def isPlaceholder : Binding → Bool
  | .placeholder _ => true
  | _ => false

def display : Binding → String
  | .kind t => "type `" ++ t ++ "`"
  | .dynamic k => "dynamic definition `" ++ k ++ "`"
  | .placeholder s => "placeholder for source type `" ++ s ++ "`"

end Binding

/-- One type without its supertypes. -/
structure TypeEntry where
  serial : Nat
  qualifiedName : QualifiedName
  properties : List Property
  binding : Binding
deriving DecidableEq, Inhabited

/-- A type and its supertypes, nearest first. -/
structure Descriptor extends TypeEntry where
  supertypes : List TypeEntry
deriving DecidableEq, Inhabited

namespace Descriptor

/-- The type that this one extends. -/
def parent? (d : Descriptor) : Option Descriptor :=
  match d.supertypes with
  | [] => none
  | entry :: rest => some ⟨entry, rest⟩

/-- The type followed by its supertypes. -/
def chain (d : Descriptor) : List TypeEntry := d.toTypeEntry :: d.supertypes

def display (d : Descriptor) : String := d.qualifiedName.display

def isPlaceholder (d : Descriptor) : Bool := d.binding.isPlaceholder

def property? (d : Descriptor) (name : String) : Option Property :=
  d.properties.find? (·.name = name)

/-- The place of a property among the properties. -/
def propertyIndex? (d : Descriptor) (name : String) : Option Nat :=
  d.properties.findIdx? (·.name = name)

def childNames (d : Descriptor) : List String := (d.properties.filter (·.isChild)).map (·.name)

def isChild (d : Descriptor) (name : String) : Bool := (d.property? name).any (·.isChild)

/-- Whether the type is `name` or extends it. -/
def isA (d : Descriptor) (name : QualifiedName) : Bool :=
  d.chain.any fun entry => entry.qualifiedName = name

end Descriptor

end Arbor
