import Arbor.Forest.Passes
import Arbor.Proofs.Forest.Cells
import Arbor.Proofs.Forest.Walks
import Arbor.Report.Result

/-!
Pictures of trees. A picture shows the nodes of a tree in the order of a walk and names other nodes
by their places in it, so trees in different forests may have the same picture. Dropping positions
takes just these out of the picture, since it reaches every node of the walk and changes nothing
that a walk, a link or a slot depends on.
-/
namespace Arbor

/-- What a property shows, with nodes named by their places where they have one. -/
inductive Content where
  | absent
  | value (v : Value)
  | child (place : Option Nat)
  | children (places : List (Option Nat))
  | reference (name : String) (target : Option (Option Nat))
deriving DecidableEq

/-- A node as a walk over its tree shows it. -/
structure NodePicture where
  typeName : QualifiedName
  parent : Option (Option Nat)
  contents : List (String × Content)
  position : Option Position
  text : Option String
deriving DecidableEq

namespace NodePicture

/-- The picture without what a node takes from the text it comes from. -/
def withoutPosition (p : NodePicture) : NodePicture := { p with position := none, text := none }

end NodePicture

/-- The node without origin and position. -/
def Node.unplaced (n : Node) : Node := { n with pin := none, origin := none }

namespace Forest

def contentOf (f : Forest) (nodes : List NodeId) : Slot → Content
  | .absent => .absent
  | .value v => .value v
  | .child c => .child (placeIn nodes c)
  | .children cs => .children (cs.map (placeIn nodes))
  | .reference r => .reference r.name ((f.target? r).map (placeIn nodes))

def nodePicture (f : Forest) (nodes : List NodeId) (id : NodeId) (n : Node) : NodePicture where
  typeName := n.qualifiedName
  parent := (f.parent? id).map (placeIn nodes)
  contents := n.properties.map fun (p, s) => (p.name, f.contentOf nodes s)
  position := f.position id
  text := f.text id

/-- The nodes of a tree in the order of a walk. -/
def picture (f : Forest) (root : NodeId) : List (Option NodePicture) :=
  (f.walk root).map fun id => (f.node? id).map (f.nodePicture (f.walk root) id)

section Clearing
variable {f : Forest} {root id : NodeId}

/-- A second clearing finds nothing left to drop. -/
theorem iterate_unplaced (n : Node) (times : Nat) : Node.unplaced^[times + 1] n = n.unplaced := by
  induction times with
  | zero => rfl
  | succ times ih =>
    rw [Function.iterate_succ_apply', ih]
    rfl

theorem node?_clearPositions (f : Forest) (root id : NodeId) :
    (f.clearPositions root).node? id =
      if id ∈ f.walk root then (f.node? id).map Node.unplaced else f.node? id := by
  show ((f.walk root).foldl (fun f id => f.update id Node.unplaced) f).node? id = _
  rw [node?_foldl_update]
  split
  · next hid =>
    obtain ⟨times, htimes⟩ := Nat.exists_eq_add_one.mpr (List.count_pos_iff.mpr hid)
    rw [htimes, funext fun n => iterate_unplaced n times]
  · next hid => simp [List.count_eq_zero_of_not_mem hid]

/-- Whatever neither origin nor position decides is kept. -/
theorem map_node?_clearPositions {α : Type} {look : Node → α}
    (h : ∀ n : Node, look n.unplaced = look n) (f : Forest) (root id : NodeId) :
    ((f.clearPositions root).node? id).map look = (f.node? id).map look := by
  rw [node?_clearPositions]
  split
  · cases f.node? id <;> simp [h]
  · rfl

@[simp] theorem size_clearPositions (f : Forest) (root : NodeId) :
    (f.clearPositions root).size = f.size := by
  rw [clearPositions]
  generalize f.walk root = ids
  induction ids generalizing f with
  | nil => rfl
  | cons id ids ih => rw [List.foldl_cons, ih, clearPosition, size_update]

theorem contains_clearPositions (f : Forest) (root id : NodeId) :
    (f.clearPositions root).contains id = f.contains id := by
  have hsome : ((f.clearPositions root).node? id).map (fun _ => ()) =
      (f.node? id).map fun _ => () := map_node?_clearPositions (fun _ => rfl) f root id
  simpa [contains] using congrArg Option.isSome hsome

theorem children_clearPositions (f : Forest) (root id : NodeId) :
    (f.clearPositions root).children id = f.children id := by
  rw [children, children, map_node?_clearPositions fun _ => rfl]

theorem walk_clearPositions (f : Forest) (root id : NodeId) :
    (f.clearPositions root).walk id = f.walk id :=
  walk_congr (children_clearPositions f root) (size_clearPositions f root) id

theorem parent?_clearPositions (f : Forest) (root id : NodeId) :
    (f.clearPositions root).parent? id = f.parent? id := by
  have hlink : ((f.clearPositions root).node? id).bind (·.parent) =
      (f.node? id).bind (·.parent) := by
    rw [node?_clearPositions]
    split
    · cases f.node? id <;> rfl
    · rfl
  simp only [parent?, hlink, contains_clearPositions]

theorem contentOf_clearPositions (f : Forest) (root : NodeId) (nodes : List NodeId) :
    (f.clearPositions root).contentOf nodes = f.contentOf nodes := by
  funext s
  cases s with
  | reference r => simp only [contentOf, target?, contains_clearPositions]
  | _ => rfl

section Walked
variable (hid : id ∈ f.walk root)
include hid

theorem origin_clearPositions :
    ((f.clearPositions root).node? id).bind (·.origin) = none := by
  rw [node?_clearPositions, if_pos hid]
  cases f.node? id <;> rfl

theorem position_clearPositions : (f.clearPositions root).position id = none := by
  rw [position, positionWithin, node?_clearPositions, if_pos hid]
  cases f.node? id <;> rfl

theorem text_clearPositions : (f.clearPositions root).text id = none := by
  rw [text, textWithin, node?_clearPositions, if_pos hid]
  cases f.node? id <;> rfl

theorem nodePicture_clearPositions (nodes : List NodeId) (n : Node) :
    (f.clearPositions root).nodePicture nodes id n.unplaced =
      (f.nodePicture nodes id n).withoutPosition := by
  simp only [nodePicture, NodePicture.withoutPosition, parent?_clearPositions,
    contentOf_clearPositions, position_clearPositions hid, text_clearPositions hid]
  rfl

end Walked

/-- Dropping positions takes positions and texts out of the picture, and nothing else. -/
theorem picture_clearPositions (f : Forest) (root : NodeId) :
    (f.clearPositions root).picture root =
      (f.picture root).map (Option.map NodePicture.withoutPosition) := by
  rw [picture, picture, walk_clearPositions, List.map_map]
  apply List.map_congr_left
  intro id hid
  rw [node?_clearPositions, if_pos hid, Option.map_map, Function.comp_apply, Option.map_map]
  congr 1
  funext n
  exact nodePicture_clearPositions hid _ n

end Clearing

end Forest

end Arbor
