import Arbor.ParseTree

/-!
What trees of nodes are built from: rule nodes of a parse tree, other nodes, and records, which
are plain trees with typed vertices and named parts.
-/
namespace Arbor

/-- The identity of a node in a forest. -/
abbrev NodeId := Nat

/-- Nothing, one item, or a collection. -/
inductive Portion (α : Type) where
  | absent
  | one (item : α)
  | many (items : List α)
deriving DecidableEq, Inhabited

namespace Portion
variable {α : Type}

def ofOption : Option α → Portion α
  | none => .absent
  | some a => .one a

def toList : Portion α → List α
  | .absent => []
  | .one a => [a]
  | .many as => as

/-- The item if there is exactly one. -/
def single? : Portion α → Option α
  | .one a => some a
  | .many [a] => some a
  | _ => none

/-- Up to one item as such, more as a collection. -/
def ofList : List α → Portion α
  | [] => .absent
  | [a] => .one a
  | as => .many as

end Portion

/-- A typed vertex with named parts of type `σ`. -/
structure SourceRecord (σ : Type) where
  typeName : String
  /-- Nearest first. -/
  supertypes : List String := []
  text : Option String := none
  position : Option Position := none
  parts : List (String × Portion σ) := []
deriving Inhabited

inductive Source where
  | tree (n : ParseNode)
  | node (id : NodeId)
  | record (r : SourceRecord Source)
deriving Inhabited

namespace Source

def tree? : Source → Option ParseNode
  | .tree n => some n
  | _ => none

def node? : Source → Option NodeId
  | .node id => some id
  | _ => none

def record? : Source → Option (SourceRecord Source)
  | .record r => some r
  | _ => none

mutual

/-- The nodes that a source mentions, and so keeps. -/
def nodes : Source → List NodeId
  | .tree _ => []
  | .node id => [id]
  | .record ⟨_, _, _, _, parts⟩ => nodesOfParts parts

def nodesOfParts : List (String × Portion Source) → List NodeId
  | [] => []
  | (_, part) :: rest => nodesOfPart part ++ nodesOfParts rest

def nodesOfPart : Portion Source → List NodeId
  | .absent => []
  | .one s => s.nodes
  | .many ss => nodesOfAll ss

def nodesOfAll : List Source → List NodeId
  | [] => []
  | s :: rest => s.nodes ++ nodesOfAll rest

end

end Source

/-- The part of this name, absent if there is none. -/
def SourceRecord.part {σ : Type} (r : SourceRecord σ) (name : String) : Portion σ :=
  ((r.parts.find? (·.1 = name)).map (·.2)).getD .absent

end Arbor
