import Arbor.Forest.Edit

/-!
Traversals of forests. A cursor holds the nodes that are still to come and opens a node when it
reaches it, so a change made in between shows. The lists below run a cursor to its end.
-/
namespace Arbor

/-- The nodes that a traversal has still to visit. -/
inductive Pending where
  /-- Nodes before what they contain; the next node first. -/
  | preorder (stack : List NodeId)
  /-- Nodes after what they contain; the mark tells nodes whose children are already listed. -/
  | postorder (stack : List (NodeId × Bool))
  /-- The nodes that contain a node, from the nearest on. -/
  | ancestors (next : Option NodeId)
  /-- A list of nodes. -/
  | listed (rest : List NodeId)
deriving DecidableEq, Inhabited

namespace Pending

/-- Lists children until the node on top has none left, through at most `fuel` levels. -/
def descend (f : Forest) :
    Nat → List (NodeId × Bool) → Option (NodeId × List (NodeId × Bool))
  | 0, _ => none
  | _ + 1, [] => none
  | _ + 1, (id, true) :: stack => some (id, stack)
  | fuel + 1, (id, false) :: stack =>
      descend f fuel ((f.children id).map (·, false) ++ (id, true) :: stack)

/-- The next node and what comes after it. Between a node and a leaf under it lie at most all
nodes of the forest. -/
def next (f : Forest) : Pending → Option (NodeId × Pending)
  | .preorder [] => none
  | .preorder (id :: stack) => some (id, .preorder (f.children id ++ stack))
  | .postorder stack =>
      (descend f (f.size + 2) stack).map fun (id, stack) => (id, .postorder stack)
  | .ancestors none => none
  | .ancestors (some id) => some (id, .ancestors (f.parent? id))
  | .listed [] => none
  | .listed (id :: rest) => some (id, .listed rest)

/-- The nodes that a traversal keeps. -/
def held : Pending → List NodeId
  | .preorder stack => stack
  | .postorder stack => stack.map (·.1)
  | .ancestors next => next.toList
  | .listed rest => rest

end Pending

/-- The orders in which nodes are visited. -/
inductive WalkOrder where
  | preorder
  | postorder
  | descendantsPreorder
  | descendantsPostorder
  | children
  | ancestors
deriving DecidableEq, Inhabited

/-- A traversal under way, which may leave out the node it started from. -/
structure Cursor where
  pending : Pending
  omitted : Option NodeId := none
deriving DecidableEq, Inhabited

namespace Cursor

def start (f : Forest) (id : NodeId) : WalkOrder → Cursor
  | .preorder => ⟨.preorder [id], none⟩
  | .postorder => ⟨.postorder [(id, false)], none⟩
  | .descendantsPreorder => ⟨.preorder [id], some id⟩
  | .descendantsPostorder => ⟨.postorder [(id, false)], some id⟩
  | .children => ⟨.listed (f.children id), none⟩
  | .ancestors => ⟨.ancestors (f.parent? id), none⟩

/-- The next node that is not left out, passing over at most `fuel` that are, and the cursor
behind it. A node that was passed over stays behind the cursor even where no other follows. -/
def nextWithin (f : Forest) : Nat → Cursor → Option NodeId × Cursor
  | 0, c => (none, c)
  | fuel + 1, c =>
      match c.pending.next f with
      | none => (none, c)
      | some (id, pending) =>
          if c.omitted = some id then nextWithin f fuel { c with pending }
          else (some id, { c with pending })

def next (f : Forest) (c : Cursor) : Option NodeId × Cursor := c.nextWithin f (f.size + 1)

/-- The nodes that the cursor keeps. -/
def held (c : Cursor) : List NodeId := c.omitted.toList ++ c.pending.held

/-- The nodes of the next `steps` steps. -/
def run (f : Forest) : Nat → Cursor → List NodeId
  | 0, _ => []
  | steps + 1, c =>
      match c.next f with
      | (none, _) => []
      | (some id, c) => id :: run f steps c

end Cursor

namespace Forest

/-- A sum over a list. -/
def total (xs : List Nat) : Nat := xs.foldl (· + ·) 0

/-- The number of nodes in and under `id`, a node counted as often as it is contained, down to
`depth` levels. -/
def weightWithin (f : Forest) : Nat → NodeId → Nat
  | 0, _ => 0
  | depth + 1, id => total ((f.children id).map (weightWithin f depth)) + 1

def weight (f : Forest) (id : NodeId) : Nat := f.weightWithin (f.size + 1) id

/-- All nodes of a traversal. -/
def traverse (f : Forest) (id : NodeId) (order : WalkOrder) : List NodeId :=
  (Cursor.start f id order).run f (f.weight id + f.size + 1)

/-- The node and everything under it, nodes before what they contain. -/
def walk (f : Forest) (id : NodeId) : List NodeId := f.traverse id .preorder

/-- The first node of a traversal that satisfies `p`, which also sees its index. -/
def findIn (nodes : List NodeId) (p : NodeId → Nat → Bool) : Option NodeId :=
  (nodes.zipIdx.find? fun (id, i) => p id i).map (·.1)

def findAncestor (f : Forest) (id : NodeId) (p : NodeId → Bool) : Option NodeId :=
  (f.traverse id .ancestors).find? p

/-- Nodes of a type, in preorder. -/
def searchByType (f : Forest) (id : NodeId) (k : Kind) : List NodeId :=
  (f.walk id).filter fun n => f.isKind n k

/-- Nodes inside `range` among the pending ones and what they contain, without looking below a
node that does not meet the range. -/
def withinFrom (f : Forest) (range : Position) : Nat → List NodeId → List NodeId
  | 0, _ => []
  | _ + 1, [] => []
  | steps + 1, id :: stack =>
      let place := f.position id
      if range.overlapsSome place then
        let rest := withinFrom f range steps (f.children id ++ stack)
        if range.containsSome place then id :: rest else rest
      else withinFrom f range steps stack

/-- Nodes inside `range`, found by passing over subtrees that do not meet it. Right where every
node lies inside the node that contains it. -/
def walkWithin (f : Forest) (id : NodeId) (range : Position) : List NodeId :=
  f.withinFrom range (f.weight id + 1) [id]

/-- Nodes inside `range`, in preorder; `selfContained` allows to pass over subtrees. -/
def searchByPosition (f : Forest) (id : NodeId) (range : Position) (selfContained : Bool) :
    List NodeId :=
  if selfContained then f.walkWithin id range
  else (f.walk id).filter fun n => range.containsSome (f.position n)

/-- The first node inside `range`, which is an outermost one. -/
def findByPosition (f : Forest) (id : NodeId) (range : Position) (selfContained : Bool) :
    Option NodeId :=
  (f.searchByPosition id range selfContained).head?

end Forest

/-- A condition on a node, and on its place in a traversal. -/
inductive Condition where
  | place (index : Nat)
  | ofType (name : QualifiedName)
  /-- The attribute can be read and has this value. -/
  | holds (name : String) (v : Value)
  | noParent
  | always
  | never

namespace Condition

def test (f : Forest) (c : Condition) (id : NodeId) (index : Nat) : Bool :=
  match c with
  | .place i => i = index
  | .ofType name => f.isA id name
  | .holds name v =>
      match f.property id name with
      | .ok (some w) => w.eqv v
      | _ => false
  | .noParent => (f.parent? id).isNone
  | .always => true
  | .never => false

end Condition

end Arbor
