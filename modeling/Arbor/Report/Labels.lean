import Arbor.Forest.Walk
import Arbor.Report.Basic

/-!
Reports of nodes and of their types. Nodes are shown under labels, which they keep once they have
one; a node that is first shown without a label gets the next number. Descriptors are numbered in
the order in which they are first shown.
-/
namespace Arbor

structure Labels where
  nodes : Table NodeId String := ∅
  /-- How many labels are numbers. -/
  numbered : Nat := 0
  /-- Serial numbers of the descriptors shown so far. -/
  types : List Nat := []
deriving Inhabited

abbrev Labelling := StateM Labels

namespace Labels

/-- Makes `name` the label of a node that has none. -/
def call (l : Labels) (id : NodeId) (name : String) : Labels :=
  if l.nodes.contains id then l else { l with nodes := l.nodes.insert id name }

/-- The label of a node. -/
def label (id : NodeId) : Labelling Json := do
  let l ← get
  match l.nodes.get? id with
  | some name => return name
  | none =>
      let name := "#" ++ toString l.numbered
      set { l with nodes := l.nodes.insert id name, numbered := l.numbered + 1 }
      return name

/-- The label of a node if there is one. -/
def label? : Option NodeId → Labelling Json
  | none => return .null
  | some id => label id

/-- The labels of some nodes, in their order; where there is no node stands null. -/
def labelAll : List (Option NodeId) → Labelling (List Json)
  | [] => return []
  | id :: rest => do
      let first ← label? id
      return first :: (← labelAll rest)

/-- The number of a descriptor. -/
def number (d : Descriptor) : Labelling Nat := do
  let l ← get
  match l.types.idxOf? d.serial with
  | some i => return i
  | none =>
      set { l with types := l.types ++ [d.serial] }
      return l.types.length

end Labels

namespace Property

def report (p : Property) : Json :=
  .array [p.name, p.kind.name, p.multiple, p.declaredType, p.inherited]

end Property

namespace Descriptor

def report (d : Descriptor) : Labelling Json := do
  return .object [
    ("id", ← Labels.number d),
    ("package", d.qualifiedName.package),
    ("name", d.qualifiedName.name),
    ("display", d.display),
    ("binding", d.binding.display),
    ("placeholder", d.isPlaceholder),
    ("extends", d.parent?.map (·.display)),
    ("supertypes", d.supertypes.map (·.qualifiedName.display)),
    ("child_names", d.childNames),
    ("props", d.properties.map Property.report)]

end Descriptor

namespace Forest

def originReport (f : Forest) : Option Origin → Labelling Json
  | none => return .null
  | some (.source (.node id)) => return .object [("node", ← Labels.label id)]
  | some (.source s) =>
      return .object [
        ("source", f.sourceType s), ("pos", f.sourcePosition s), ("text", f.sourceText s)]
  | some (.synthetic position text) =>
      return .object [("synthetic", .object [("pos", position), ("text", text)])]

def slotReport (f : Forest) : Slot → Labelling Json
  | .absent => return .null
  | .value v => return .object [("value", v)]
  | .child c => return .object [("child", ← Labels.label c)]
  | .children cs => return .object [("children", ← Labels.labelAll (cs.map some))]
  | .reference r => return .object [("ref", r.name), ("to", ← Labels.label? (f.target? r))]

def slotReports (f : Forest) : List (Property × Slot) → Labelling (List Json)
  | [] => return []
  | (p, s) :: rest => do
      let content ← f.slotReport s
      return .array [p.name, content] :: (← f.slotReports rest)

/-- A node with its links, as members of an object. Nodes are labelled in the order node,
containing node, slots, origin. -/
def summary (f : Forest) (id : NodeId) : Labelling (List (String × Json)) := do
  match f.node? id with
  | none => return []
  | some n =>
      let own ← Labels.label id
      let parent ← Labels.label? (f.parent? id)
      let slots ← f.slotReports n.properties
      let origin ← f.originReport n.origin
      return [("label", own), ("type", n.typeName), ("parent", parent), ("pos", f.position id),
        ("slots", slots), ("origin", origin)]

/-- One summary a node. -/
def summaries (f : Forest) : List NodeId → Labelling (List Json)
  | [] => return []
  | id :: rest => do
      let first ← f.summary id
      return .object first :: (← f.summaries rest)

/-- The nodes of a tree in preorder. -/
def dump (f : Forest) (root : NodeId) : Labelling Json := return ← f.summaries (f.walk root)

end Forest

end Arbor
