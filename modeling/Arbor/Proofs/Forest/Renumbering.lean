import Arbor.Proofs.Forest.Realization

/-!
Numbers of new nodes. The cells of new nodes follow those that are taken, so the same steps in a
larger forest make the same nodes under higher numbers. What these nodes name of each other has the
higher numbers, too, while the nodes that both forests share keep theirs.
-/
namespace Arbor

namespace Source
variable (number : NodeId → NodeId)

mutual

/-- The source with other numbers for the nodes that it mentions. -/
def renumber : Source → Source
  | .tree n => .tree n
  | .node id => .node (number id)
  | .record ⟨typeName, supertypes, text, position, parts⟩ =>
      .record ⟨typeName, supertypes, text, position, renumberParts parts⟩

def renumberParts : List (String × Portion Source) → List (String × Portion Source)
  | [] => []
  | (name, part) :: rest => (name, renumberPart part) :: renumberParts rest

def renumberPart : Portion Source → Portion Source
  | .absent => .absent
  | .one s => .one (renumber s)
  | .many ss => .many (renumberAll ss)

def renumberAll : List Source → List Source
  | [] => []
  | s :: rest => renumber s :: renumberAll rest

end

end Source

/-- The origin with other numbers for the nodes that it mentions. -/
def Origin.renumber (number : NodeId → NodeId) : Origin → Origin
  | .source s => .source (s.renumber number)
  | .synthetic position text => .synthetic position text

/-- The slot with other numbers for what it contains or refers to. -/
def Slot.renumber (number : NodeId → NodeId) : Slot → Slot
  | .child id => .child (number id)
  | .children ids => .children (ids.map number)
  | .reference r => .reference { r with target := r.target.map number }
  | s => s

namespace Node

/-- The node with other numbers for the nodes that it names. -/
def renumber (number : NodeId → NodeId) (n : Node) : Node :=
  { n with
    parent := n.parent.map number
    origin := n.origin.map (·.renumber number)
    slots := n.slots.map (·.renumber number) }

@[simp] theorem renumber_blank (number : NodeId → NodeId) (d : Descriptor) :
    (blank d).renumber number = blank d := by
  simp [renumber, blank, Slot.renumber]

end Node

namespace Forest
/-- The number of a node if the cells behind `old` are numbered from `first` on. -/
def numberFrom (old : Forest) (first : Nat) (id : NodeId) : NodeId :=
  if id < old.size then id else first + (id - old.size)

@[simp] theorem numberFrom_size_add (old : Forest) (first i : Nat) :
    old.numberFrom first (old.size + i) = first + i := by
  rw [numberFrom, if_neg (Nat.not_lt.mpr (Nat.le_add_right _ _)), Nat.add_sub_cancel_left]

@[simp] theorem numberFrom_size (old : Forest) (first : Nat) :
    old.numberFrom first old.size = first := numberFrom_size_add old first 0

theorem map_numberFrom_range' (old : Forest) (first count : Nat) :
    (List.range' old.size count).map (old.numberFrom first) = List.range' first count := by
  rw [List.range'_eq_map_range, List.range'_eq_map_range, List.map_map]
  exact List.map_congr_left fun i _ => numberFrom_size_add old first i

/-- Puts nodes into new cells, one behind the other. -/
def allocAll (f : Forest) (ns : List Node) : Forest := ns.foldl (fun f n => (f.alloc n).2) f

@[simp] theorem size_allocAll (f : Forest) (ns : List Node) :
    (f.allocAll ns).size = f.size + ns.length := by
  induction ns generalizing f with
  | nil => rfl
  | cons n ns ih =>
    show ((f.alloc n).2.allocAll ns).size = _
    rw [ih, size_alloc, List.length_cons, Nat.add_assoc, Nat.add_comm 1]

theorem extends_allocAll (f : Forest) (ns : List Node) : (f.allocAll ns).Extends f := by
  induction ns generalizing f with
  | nil => exact .refl f
  | cons n ns ih => exact (ih (f.alloc n).2).trans (extends_alloc f n)

/-- The new cells hold the nodes in their order. -/
theorem forall₂_allocAll (f : Forest) (ns : List Node) :
    List.Forall₂ (fun id n => (f.allocAll ns).node? id = some n)
      (List.range' f.size ns.length) ns := by
  induction ns generalizing f with
  | nil => exact .nil
  | cons n ns ih =>
    have hrest := ih (f.alloc n).2
    rw [size_alloc] at hrest
    refine .cons ?_ hrest
    have hfirst : (f.alloc n).2.node? f.size = some n := by simp [node?_alloc]
    rw [← hfirst]
    exact (extends_allocAll (f.alloc n).2 ns).older (by simp)

/-- What is read of the new nodes, each with its cell. -/
theorem filterMap_allocAll {α : Type} (f : Forest) (ns : List Node) (read : NodeId → Node → α) :
    (List.range' f.size ns.length).filterMap
        (fun id => ((f.allocAll ns).node? id).map (read id)) =
      List.zipWith read (List.range' f.size ns.length) ns := by
  have hnodes := f.forall₂_allocAll ns
  generalize f.allocAll ns = g at hnodes ⊢
  generalize List.range' f.size ns.length = ids at hnodes ⊢
  induction hnodes with
  | nil => rfl
  | cons hfirst _ ih => simp [hfirst, ih]

end Forest

end Arbor
