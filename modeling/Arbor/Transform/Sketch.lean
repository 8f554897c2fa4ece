import Arbor.Forest.Basic
import Arbor.Transform.Failure

/-!
Sources described by names. A sketch says which source is meant without holding it: the names
in it are looked up in a catalogue when the source is needed, so a name that was given to
something else in between means the new thing, and a sketch keeps no node.
-/
namespace Arbor

/-- What names stand for. -/
structure Catalogue where
  nodes : Table String NodeId := ∅
  trees : Table String ParseNode := ∅
  rules : Table String RuleKind := ∅
  sources : Table String Source := ∅
deriving Inhabited

/-- A name that stands for nothing. -/
structure Unbound where
  name : String
deriving DecidableEq, Inhabited

/-- Such a name is all that a supplied step can tell. -/
def Unbound.failure (u : Unbound) : Failure := ⟨u.name, []⟩

namespace Catalogue

/-- What a name stands for in one of the tables. -/
def look {α : Type} (table : Table String α) (name : String) : Except Unbound α :=
  match table.get? name with
  | some a => .ok a
  | none => .error ⟨name⟩

def node (c : Catalogue) (name : String) : Except Unbound NodeId := look c.nodes name
def tree (c : Catalogue) (name : String) : Except Unbound ParseNode := look c.trees name
def rule (c : Catalogue) (name : String) : Except Unbound RuleKind := look c.rules name
def source (c : Catalogue) (name : String) : Except Unbound Source := look c.sources name

end Catalogue

inductive Sketch where
  | node (name : String)
  | tree (name : String)
  | source (name : String)
  | record (r : SourceRecord Sketch)
deriving Inhabited

namespace Sketch

mutual

/-- The source that is meant, or the first name on the way that stands for nothing. -/
def resolve (c : Catalogue) : Sketch → Except Unbound Source
  | .node name => (c.node name).map .node
  | .tree name => (c.tree name).map .tree
  | .source name => c.source name
  | .record ⟨typeName, supertypes, text, position, parts⟩ =>
      (resolveParts c parts).map fun parts => .record ⟨typeName, supertypes, text, position, parts⟩

def resolveParts (c : Catalogue) :
    List (String × Portion Sketch) → Except Unbound (List (String × Portion Source))
  | [] => .ok []
  | (name, part) :: rest => do
      let part ← resolvePortion c part
      return (name, part) :: (← resolveParts c rest)

def resolvePortion (c : Catalogue) : Portion Sketch → Except Unbound (Portion Source)
  | .absent => .ok .absent
  | .one s => (s.resolve c).map .one
  | .many ss => (resolveAll c ss).map .many

def resolveAll (c : Catalogue) : List Sketch → Except Unbound (List Source)
  | [] => .ok []
  | s :: rest => do
      let source ← s.resolve c
      return source :: (← resolveAll c rest)

end

end Sketch

/-- An origin described by names. -/
inductive OriginSketch where
  | absent
  | synthetic (position : Option Position) (text : Option String)
  | source (s : Sketch)
deriving Inhabited

namespace OriginSketch

def resolve (c : Catalogue) : OriginSketch → Except Unbound (Option Origin)
  | .absent => .ok none
  | .synthetic position text => .ok (some (.synthetic position text))
  | .source s => (s.resolve c).map fun source => some (.source source)

end OriginSketch

end Arbor
