import Arbor.Forest.Walk

/-!
Passes over whole trees: links back to containing nodes, dropping positions, and the check that
every node lies inside the node that contains it.
-/
namespace Arbor

/-- What is wrong with the position of a node. -/
inductive PositionProblem where
  | missing
  | malformed (position : Position)
  | outsideParent (position parent : Position)
deriving DecidableEq

namespace PositionProblem

def message : PositionProblem → String
  | .missing => "missing position"
  | .malformed position => "malformed position " ++ position.display
  | .outsideParent position parent =>
      "position " ++ position.display ++ " escapes parent position " ++ parent.display

end PositionProblem

namespace Forest

/-- Makes everything that `id` contains point back at it. -/
def adoptChildren (f : Forest) (id : NodeId) : Forest :=
  (f.children id).foldl (fun f c => f.setParent c (some id)) f

/-- Makes every node under `root` point back at the node that contains it. The link of `root`
stays as it is. -/
def assignParents (f : Forest) (root : NodeId) : Forest := (f.walk root).foldl adoptChildren f

/-- Drops origins and positions in the whole tree. -/
def clearPositions (f : Forest) (root : NodeId) : Forest := (f.walk root).foldl clearPosition f

/-- A node needs a valid position, inside its parent's if that has one. -/
def positionProblem (f : Forest) (id : NodeId) : Option PositionProblem :=
  match f.position id with
  | none => some .missing
  | some position =>
      if !position.isValid then some (.malformed position)
      else
        match (f.parent? id).bind f.position with
        | none => none
        | some parent =>
            if parent.contains position then none else some (.outsideParent position parent)

def invalidPositions (f : Forest) (root : NodeId) : List (NodeId × PositionProblem) :=
  (f.walk root).filterMap fun id => (f.positionProblem id).map (id, ·)

end Forest

end Arbor
