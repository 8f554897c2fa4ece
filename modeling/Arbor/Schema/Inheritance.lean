import Arbor.Schema.Error

/-!
Extension between node types: the graph of names that keeps types from extending themselves,
and the properties that a type takes over from its supertype.
-/
namespace Arbor

/-- Pairs of a type's name and the name of a type it extends, oldest first. -/
structure InheritanceGraph where
  edges : List (QualifiedName × QualifiedName) := []
deriving DecidableEq, Inhabited

namespace InheritanceGraph

def addEdge (g : InheritanceGraph) (child parent : QualifiedName) : InheritanceGraph :=
  if (child, parent) ∈ g.edges then g else ⟨g.edges ++ [(child, parent)]⟩

/-- The names that `child` extends directly. -/
def parentsOf (g : InheritanceGraph) (child : QualifiedName) : List QualifiedName :=
  g.edges.filterMap fun (c, p) => if c = child then some p else none

/-- Looks for `target` among the pending names and what they extend. The last pending name is
taken first, and a name is opened once. -/
def search (g : InheritanceGraph) (target : QualifiedName) :
    Nat → List QualifiedName → List QualifiedName → Bool
  | 0, _, _ => false
  | _ + 1, _, [] => false
  | fuel + 1, visited, current :: pending =>
      if current = target then true
      else if current ∈ visited then search g target fuel visited pending
      else search g target fuel (current :: visited) ((g.parentsOf current).reverse ++ pending)

/-- Whether `child` extending `parent` would close a cycle. Every edge is followed at most once,
so one step more than there are edges is enough. -/
def wouldCreateCycle (g : InheritanceGraph) (child parent : QualifiedName) : Bool :=
  child = parent || g.search child (g.edges.length + 2) [] [parent]

end InheritanceGraph

/-- The first name that comes a second time. -/
def firstRepeated : List String → List String → Option String
  | _, [] => none
  | seen, name :: rest => if name ∈ seen then some name else firstRepeated (name :: seen) rest

/-- Inherited properties keep their places; an own property takes the place of an inherited one
of its name or follows them. A type declares no name twice. -/
def mergeProperties (name : QualifiedName) (inherited own : List Property) :
    Except SchemaError (List Property) :=
  match firstRepeated [] (own.map (·.name)) with
  | some property => .error (.duplicateProperty name property)
  | none =>
      .ok (own.foldl (fun merged p => Property.put { p with inherited := false } merged)
        (inherited.map Property.asInherited))

end Arbor
