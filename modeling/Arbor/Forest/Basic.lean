import Arbor.Schema.Registry
import Arbor.Source
import Arbor.Value

/-!
Forests of nodes. A node has a type and one slot for each property of its type; child slots
contain other nodes, and every node may point back at the node that contains it. The cells of a
forest are numbered, a number is given out once, and a cell is empty once its node is gone. A
link to a node that is gone reads as no link.
-/
namespace Arbor

/-- A node named by a text, and the node it stands for once that is known. -/
structure Reference where
  name : String
  target : Option NodeId := none
deriving DecidableEq, Inhabited

def Reference.display (r : Reference) : String := "ref:" ++ r.name

/-- What a property of a node holds. -/
inductive Slot where
  | absent
  | value (v : Value)
  | child (id : NodeId)
  | children (ids : List NodeId)
  | reference (r : Reference)
deriving DecidableEq, Inhabited

namespace Slot

def isAbsent : Slot → Bool
  | .absent => true
  | _ => false

/-- The nodes that the slot contains. -/
def nodes : Slot → List NodeId
  | .child id => [id]
  | .children ids => ids
  | _ => []

/-- The slot with `id` taken out; an emptied collection stays a collection. -/
def without (id : NodeId) : Slot → Slot
  | .child c => if c = id then .absent else .child c
  | .children cs => .children (cs.filter (· ≠ id))
  | s => s

end Slot

/-- Where a node comes from. -/
inductive Origin where
  | source (s : Source)
  | synthetic (position : Option Position) (text : Option String)
deriving Inhabited

structure Node where
  descriptor : Descriptor
  parent : Option NodeId := none
  origin : Option Origin := none
  /-- A position that counts instead of the origin's. -/
  pin : Option Position := none
  label : Option String := none
  /-- In the order of the type's properties. -/
  slots : List Slot
deriving Inhabited

namespace Node

/-- A node of the given type with nothing in it. -/
def blank (d : Descriptor) : Node :=
  { descriptor := d, slots := List.replicate d.properties.length .absent }

def qualifiedName (n : Node) : QualifiedName := n.descriptor.qualifiedName
def typeName (n : Node) : String := n.descriptor.display

/-- Properties with their contents. -/
def properties (n : Node) : List (Property × Slot) := n.descriptor.properties.zip n.slots

/-- The nodes in child slots, in the order of the properties. -/
def children (n : Node) : List NodeId :=
  n.properties.flatMap fun (p, s) => if p.isChild then s.nodes else []

/-- Whether the node's origin is exactly the node `id`. -/
def originNode? (n : Node) : Option NodeId :=
  match n.origin with
  | some (.source (.node id)) => some id
  | _ => none

/-- The nodes that this one keeps: those it contains and those its origin mentions. -/
def owned (n : Node) : List NodeId :=
  n.children ++ match n.origin with
    | some (.source s) => s.nodes
    | _ => []

end Node

structure Forest where
  cells : Array (Option Node) := #[]
deriving Inhabited

namespace Forest

def size (f : Forest) : Nat := f.cells.size

def node? (f : Forest) (id : NodeId) : Option Node := f.cells[id]?.join

def contains (f : Forest) (id : NodeId) : Bool := (f.node? id).isSome

/-- Puts a node into a new cell. -/
def alloc (f : Forest) (n : Node) : NodeId × Forest := (f.size, ⟨f.cells.push (some n)⟩)

/-- Changes the node in a cell, if there is one. -/
def update (f : Forest) (id : NodeId) (change : Node → Node) : Forest :=
  match f.node? id with
  | some n => ⟨f.cells.setIfInBounds id (some (change n))⟩
  | none => f

/-- Adds a node with nothing in it. -/
def create (f : Forest) (d : Descriptor) : NodeId × Forest := f.alloc (Node.blank d)

/-- The containing node that `id` points at, if it is still there. -/
def parent? (f : Forest) (id : NodeId) : Option NodeId :=
  ((f.node? id).bind (·.parent)).filter fun p => f.contains p

def children (f : Forest) (id : NodeId) : List NodeId :=
  ((f.node? id).map Node.children).getD []

/-- The node a reference stands for, if it is still there. -/
def target? (f : Forest) (r : Reference) : Option NodeId := r.target.filter fun t => f.contains t

def isA (f : Forest) (id : NodeId) (name : QualifiedName) : Bool :=
  (f.node? id).any fun n => n.descriptor.isA name

def isKind (f : Forest) (id : NodeId) (k : Kind) : Bool := f.isA id k.qualifiedName

/-- References are equal when name and target are, where a target that is gone counts as none. -/
def referencesAgree (f : Forest) (r s : Reference) : Bool :=
  r.name = s.name && f.target? r = f.target? s

/-- The position of a node through at most `fuel` origins. -/
def positionWithin (f : Forest) : Nat → NodeId → Option Position
  | 0, _ => none
  | fuel + 1, id =>
      (f.node? id).bind fun n =>
        n.pin.or <| match n.origin with
          | none => none
          | some (.synthetic position _) => position
          | some (.source (.tree t)) => some t.position
          | some (.source (.record r)) => r.position
          | some (.source (.node origin)) => positionWithin f fuel origin

/-- The text of a node through at most `fuel` origins. -/
def textWithin (f : Forest) : Nat → NodeId → Option String
  | 0, _ => none
  | fuel + 1, id =>
      (f.node? id).bind fun n =>
        match n.origin with
        | none => none
        | some (.synthetic _ text) => text
        | some (.source (.tree t)) => some t.text
        | some (.source (.record r)) => r.text
        | some (.source (.node origin)) => textWithin f fuel origin

/-- A node's own position, or else the one of its origin. -/
def position (f : Forest) (id : NodeId) : Option Position := f.positionWithin (f.size + 1) id

/-- The text that a node's origin records. -/
def text (f : Forest) (id : NodeId) : Option String := f.textWithin (f.size + 1) id

/-- The most specific type of a source. -/
def sourceType (f : Forest) : Source → String
  | .tree n => n.rule.name
  | .node id => ((f.node? id).map Node.typeName).getD ""
  | .record r => r.typeName

/-- Further types of a source, nearest first. -/
def sourceSupertypes (f : Forest) : Source → List String
  | .tree n => n.rule.supertypes
  | .node id =>
      ((f.node? id).map fun n => n.descriptor.supertypes.map (·.qualifiedName.display)).getD []
  | .record r => r.supertypes

def sourceChain (f : Forest) (s : Source) : List String := f.sourceType s :: f.sourceSupertypes s

def sourcePosition (f : Forest) : Source → Option Position
  | .tree n => some n.position
  | .node id => f.position id
  | .record r => r.position

def sourceText (f : Forest) : Source → Option String
  | .tree n => some n.text
  | .node id => f.text id
  | .record r => r.text

def originPosition (f : Forest) : Origin → Option Position
  | .source s => f.sourcePosition s
  | .synthetic position _ => position

def originText (f : Forest) : Origin → Option String
  | .source s => f.sourceText s
  | .synthetic _ text => text

end Forest

end Arbor
