import Arbor.Schema.Descriptor

/-!
Node kinds: node types that are declared in advance. A kind names the kind that it extends, so
a family of kinds may extend each other in any way, in circles too; registering finds that out.
-/
namespace Arbor

structure Kind where
  /-- What tells kinds apart; two kinds may share a qualified name. -/
  typeName : String
  qualifiedName : QualifiedName
  properties : List Property := []
  /-- The type name of the kind that this one extends. -/
  extends? : Option String := none
deriving DecidableEq, Inhabited

/-- The kinds that may extend each other. -/
structure Family where
  kinds : List Kind
deriving DecidableEq, Inhabited

namespace Family

def find? (f : Family) (typeName : String) : Option Kind :=
  f.kinds.find? (·.typeName = typeName)

/-- The kind that `k` extends. -/
def superKind? (f : Family) (k : Kind) : Option Kind := k.extends?.bind f.find?

instance : Append Family := ⟨fun f g => ⟨f.kinds ++ g.kinds⟩⟩

end Family

/-- What a defined type extends. -/
inductive Parent where
  | kind (k : Kind)
  | descriptor (d : Descriptor)

/-- A node type before it is registered. -/
structure Definition where
  qualifiedName : QualifiedName
  properties : List Property := []
  parent : Option Parent := none

namespace Definition

def listing (d : Definition) : String :=
  Text.fields "TypeDefinition" [
    ("qualified_name", Text.fields "QualifiedName" [
      ("package", Text.quoted d.qualifiedName.package),
      ("name", Text.quoted d.qualifiedName.name)]),
    ("properties", Text.bracketed (d.properties.map Property.listing)),
    ("has_parent", Text.truth d.parent.isSome)]

end Definition

/-- The definition of a kind within its family. -/
def Kind.definition (f : Family) (k : Kind) : Definition :=
  ⟨k.qualifiedName, k.properties, (f.superKind? k).map .kind⟩

def Descriptor.isKind (d : Descriptor) (k : Kind) : Bool := d.isA k.qualifiedName

end Arbor
