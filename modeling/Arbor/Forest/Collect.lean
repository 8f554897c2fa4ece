import Arbor.Forest.Basic

/-!
Nodes that nothing keeps are dropped. A node keeps the nodes it contains and the nodes its
origin mentions; links back and references keep nothing. What counts is the number of owners, so
nodes that keep each other in a circle stay, also when nothing outside the circle keeps them.
-/
namespace Arbor

namespace Forest

/-- One more owner of a cell. -/
def addOwner (counts : Array Nat) (id : NodeId) : Array Nat := counts.modify id (· + 1)

/-- One owner of a cell less. -/
def removeOwner (counts : Array Nat) (id : NodeId) : Array Nat := counts.modify id (· - 1)

/-- How many owners each cell has among the roots and the nodes, where one that mentions a node
twice counts twice. -/
def ownerCounts (f : Forest) (roots : List NodeId) : Array Nat :=
  f.cells.foldl (fun counts cell => ((cell.map Node.owned).getD []).foldl addOwner counts)
    (roots.foldl addOwner (Array.replicate f.size 0))

/-- The number of links by which nodes keep nodes. -/
def ownedCount (f : Forest) : Nat :=
  f.cells.foldl (fun n cell => n + ((cell.map fun c => c.owned.length).getD 0)) 0

/-- Empties a cell. -/
def erase (f : Forest) (id : NodeId) : Forest := ⟨f.cells.setIfInBounds id none⟩

/-- Drops the pending nodes, and after each one the nodes of which it was the last owner. -/
def release : Nat → Forest → Array Nat → List NodeId → Forest
  | 0, f, _, _ => f
  | _ + 1, f, _, [] => f
  | fuel + 1, f, counts, id :: pending =>
      match f.node? id with
      | none => release fuel f counts pending
      | some n =>
          let counts := n.owned.foldl removeOwner counts
          release fuel (f.erase id) counts (n.owned.filter (fun o => counts[o]? = some 0) ++ pending)

/-- Drops the nodes that neither the roots nor other nodes keep. A node is pending once at the
start or once for each of its owners. -/
def collect (f : Forest) (roots : List NodeId) : Forest :=
  let counts := f.ownerCounts roots
  f.release (f.size + f.ownedCount + 1) counts
    ((List.range f.size).filter fun id => counts[id]? = some 0)

/-- Drops the nodes numbered from `mark` on that neither an older node nor one of `roots` keeps. -/
def collectSince (f : Forest) (mark : Nat) (roots : List NodeId) : Forest :=
  if mark < f.size then f.collect (List.range mark ++ roots) else f

end Forest

end Arbor
