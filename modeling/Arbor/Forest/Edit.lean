import Arbor.Forest.Basic

/-!
Changes to forests. Attaching keeps both sides of containment together: a node that goes into a
slot points back at the owner of the slot, and what it replaces points nowhere. A change that is
refused yields no forest, so the old one stands.
-/
namespace Arbor

inductive ForestError where
  | notAChild (nodeType : QualifiedName) (property : String)
  | notACollection (nodeType : QualifiedName) (property : String)
  | isACollection (nodeType : QualifiedName) (property : String)
  /-- The node belongs to another one. -/
  | alreadyParented (nodeType : QualifiedName) (property : String) (childType : QualifiedName)
  /-- The node contains the place it should go to. -/
  | cycleAttach (nodeType : QualifiedName) (property : String)
  | unknownProperty (nodeType : QualifiedName) (property : String)
  | wrongPropertyKind (nodeType : QualifiedName) (property : String)
      (expected actual : PropertyKind)
  | schema (cause : SchemaError)
  /-- No node has this identity any more. -/
  | gone (id : NodeId)
deriving DecidableEq

namespace ForestError

/-- The name of the case, for tools; a cause stands behind the case that wraps it. -/
def code : ForestError → String
  | .notAChild .. => "NotAChild"
  | .notACollection .. => "NotACollection"
  | .isACollection .. => "IsACollection"
  | .alreadyParented .. => "AlreadyParented"
  | .cycleAttach .. => "CycleAttach"
  | .unknownProperty .. => "UnknownProperty"
  | .wrongPropertyKind .. => "WrongPropertyKind"
  | .schema cause => "Schema/" ++ cause.code
  | .gone _ => "Gone"

def message : ForestError → String
  | .notAChild t p => "Property '" ++ p ++ "' of " ++ t.display ++ " is not a child property"
  | .notACollection t p =>
      "Property '" ++ p ++ "' of " ++ t.display ++ " is not a collection, use set_child"
  | .isACollection t p =>
      "Property '" ++ p ++ "' of " ++ t.display ++ " is a collection, use add_child"
  | .alreadyParented t p c =>
      "Cannot attach " ++ c.display ++ " to '" ++ p ++ "' of " ++ t.display
        ++ ": it already has a parent"
  | .cycleAttach t p =>
      "Cannot attach a node under itself ('" ++ p ++ "' of " ++ t.display ++ ")"
  | .unknownProperty t p => t.display ++ " has no property '" ++ p ++ "'"
  | .wrongPropertyKind t p expected actual =>
      "Property '" ++ p ++ "' of " ++ t.display ++ " is " ++ actual.name ++ ", expected "
        ++ expected.name
  | .schema cause => cause.message
  | .gone _ => "no such node"

end ForestError

namespace Node

/-- The place and the declaration of a property. -/
def declared (n : Node) (name : String) : Except ForestError (Nat × Property) :=
  match n.descriptor.propertyIndex? name with
  | none => .error (.unknownProperty n.qualifiedName name)
  | some i =>
      match n.descriptor.properties[i]? with
      | some p =>
          if i < n.slots.length then .ok (i, p)
          else .error (.unknownProperty n.qualifiedName name)
      | none => .error (.unknownProperty n.qualifiedName name)

def declaredOf (n : Node) (kind : PropertyKind) (name : String) : Except ForestError Nat :=
  match n.declared name with
  | .error e => .error e
  | .ok (i, p) =>
      if p.kind = kind then .ok i
      else .error (.wrongPropertyKind n.qualifiedName name kind p.kind)

/-- The place of a property for one child. -/
def singleChild (n : Node) (name : String) : Except ForestError Nat :=
  match n.declared name with
  | .error e => .error e
  | .ok (i, p) =>
      if !p.isChild then .error (.notAChild n.qualifiedName name)
      else if p.multiple then .error (.isACollection n.qualifiedName name)
      else .ok i

/-- The place of a property for any number of children. -/
def childCollection (n : Node) (name : String) : Except ForestError Nat :=
  match n.declared name with
  | .error e => .error e
  | .ok (i, p) =>
      if !p.isChild then .error (.notAChild n.qualifiedName name)
      else if !p.multiple then .error (.notACollection n.qualifiedName name)
      else .ok i

def slot (n : Node) (i : Nat) : Slot := n.slots[i]?.getD .absent

def setSlot (n : Node) (i : Nat) (s : Slot) : Node := { n with slots := n.slots.set i s }

def setParent (n : Node) (parent : Option NodeId) : Node := { n with parent }

/-- The node with `id` in none of its slots. -/
def release (n : Node) (id : NodeId) : Node := { n with slots := n.slots.map (Slot.without id) }

end Node

namespace Forest

def get (f : Forest) (id : NodeId) : Except ForestError Node :=
  match f.node? id with
  | some n => .ok n
  | none => .error (.gone id)

/-- Overwrites the link to the containing node and touches no slot. -/
def setParent (f : Forest) (id : NodeId) (parent : Option NodeId) : Forest :=
  f.update id (·.setParent parent)

/-- A node is never its own origin: that wish is passed over. -/
def setOrigin (f : Forest) (id : NodeId) (origin : Option Origin) : Forest :=
  match origin with
  | some (.source (.node o)) => if o = id then f else f.update id ({ · with origin })
  | _ => f.update id ({ · with origin })

def setPosition (f : Forest) (id : NodeId) (pin : Option Position) : Forest :=
  f.update id ({ · with pin })

/-- Drops the origin and the node's own position. -/
def clearPosition (f : Forest) (id : NodeId) : Forest :=
  f.update id ({ · with pin := none, origin := none })

def setLabel (f : Forest) (id : NodeId) (label : Option String) : Forest :=
  f.update id ({ · with label })

/-- The node in a property for one child. -/
def child (f : Forest) (id : NodeId) (name : String) : Except ForestError (Option NodeId) := do
  let n ← f.get id
  let i ← n.singleChild name
  return match n.slot i with
    | .child c => some c
    | _ => none

/-- The nodes in a property for any number of children. -/
def childrenOf (f : Forest) (id : NodeId) (name : String) : Except ForestError (List NodeId) := do
  let n ← f.get id
  let i ← n.childCollection name
  return match n.slot i with
    | .children cs => cs
    | _ => []

/-- Takes a node out of all slots of the node that contains it. Tells whether there was one. -/
def detach (f : Forest) (id : NodeId) : Bool × Forest :=
  match f.parent? id with
  | none => (false, f)
  | some p => (true, (f.update p (·.release id)).setParent id none)

/-- The node and the nodes that contain it, through at most `fuel` links. -/
def lineage (f : Forest) : Nat → NodeId → List NodeId
  | 0, _ => []
  | fuel + 1, id =>
      id :: match f.parent? id with
        | some p => lineage f fuel p
        | none => []

/-- Whether `child` may go under `owner`: it belongs to no other node and does not contain the
owner. -/
def attachable (f : Forest) (owner : NodeId) (n : Node) (name : String) (child : NodeId)
    (childNode : Node) : Except ForestError Unit :=
  if (f.parent? child).any (· ≠ owner) then
    .error (.alreadyParented n.qualifiedName name childNode.qualifiedName)
  else if child ∈ f.lineage (f.size + 1) owner then
    .error (.cycleAttach n.qualifiedName name)
  else .ok ()

/-- Puts `child` into the slot at `i`, in place of what is there. -/
def place (f : Forest) (owner : NodeId) (i : Nat) (child : NodeId) : Forest :=
  let previous := ((f.node? owner).map (·.slot i)).getD .absent
  let f := f.update owner (·.setSlot i (.child child))
  let f := match previous with
    | .child p => if p = child then f else f.setParent p none
    | _ => f
  f.setParent child (some owner)

/-- Puts `child` at the end of the collection at `i`. -/
def append (f : Forest) (owner : NodeId) (i : Nat) (child : NodeId) : Forest :=
  let grow (n : Node) : Node :=
    n.setSlot i <| match n.slot i with
      | .children cs => .children (cs ++ [child])
      | _ => .children [child]
  (f.update owner grow).setParent child (some owner)

/-- Makes `child` the content of a property for one child. -/
def setChild (f : Forest) (owner : NodeId) (name : String) (child : NodeId) :
    Except ForestError Forest := do
  let n ← f.get owner
  let c ← f.get child
  let i ← n.singleChild name
  f.attachable owner n name child c
  return (f.detach child).2.place owner i child

/-- Adds `child` to a property for any number of children. -/
def addChild (f : Forest) (owner : NodeId) (name : String) (child : NodeId) :
    Except ForestError Forest := do
  let n ← f.get owner
  let c ← f.get child
  let i ← n.childCollection name
  f.attachable owner n name child c
  return (f.detach child).2.append owner i child

/-- Empties a property for one child and gives what it held. -/
def clearChild (f : Forest) (owner : NodeId) (name : String) :
    Except ForestError (Option NodeId × Forest) := do
  let n ← f.get owner
  let i ← n.singleChild name
  let f := f.update owner (·.setSlot i .absent)
  return match n.slot i with
    | .child c => (some c, f.setParent c none)
    | _ => (none, f)

def property (f : Forest) (id : NodeId) (name : String) : Except ForestError (Option Value) := do
  let n ← f.get id
  let i ← n.declaredOf .attr name
  return match n.slot i with
    | .value v => some v
    | _ => none

def setProperty (f : Forest) (id : NodeId) (name : String) (v : Value) :
    Except ForestError Forest := do
  let n ← f.get id
  let i ← n.declaredOf .attr name
  return f.update id (·.setSlot i (.value v))

def reference (f : Forest) (id : NodeId) (name : String) :
    Except ForestError (Option Reference) := do
  let n ← f.get id
  let i ← n.declaredOf .reference name
  return match n.slot i with
    | .reference r => some r
    | _ => none

def setReference (f : Forest) (id : NodeId) (name : String) (r : Reference) :
    Except ForestError Forest := do
  let n ← f.get id
  let i ← n.declaredOf .reference name
  return f.update id (·.setSlot i (.reference r))

end Forest

end Arbor
