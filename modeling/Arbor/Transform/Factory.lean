import Arbor.Forest.World
import Arbor.Issue.Basic
import Arbor.Transform.Failure

/-!
Factories turn a source of one type into nodes. A factory has a constructor for the nodes and
wirings that tell where the content of their child properties comes from. What factories work
on is a workshop, and what they changed before they fail stays changed.
-/
namespace Arbor

/-- What a transformer writes down while it works. -/
structure Notes where
  issues : List Issue := []
  /-- For a source type met before, the type whose factory serves it. -/
  resolved : Table String (Option String) := ∅
  /-- For a factory, a node type and a property met before, the key of the wiring. -/
  wired : Table (String × String × String) (Option String) := ∅
deriving Inhabited

namespace Notes

/-- The notes without what the choice of factories decides. -/
def forgetFactories (n : Notes) : Notes := { issues := n.issues }

end Notes

/-- What a transformation works on: the world, and the notes of the transformer. -/
structure Workshop extends Notes where
  world : World := {}
deriving Inhabited

/-- Work that may fail with `ε`; the workshop keeps what was done before a failure. -/
abbrev Work (ε : Type) := ExceptT ε (StateM Workshop)

namespace Work
variable {ε ε' α : Type}

def forest : Work ε Forest := return (← get).world.forest

def setForest (f : Forest) : Work ε Unit :=
  modify fun w => { w with world := { w.world with forest := f } }

/-- Changes the forest in a way that cannot be refused. -/
def modifyForest (change : Forest → Forest) : Work ε Unit := do
  setForest (change (← forest))

/-- Changes the forest in a way that may be refused. -/
def edit (change : Forest → Except ForestError Forest) : Work ForestError Unit := do
  match change (← forest) with
  | .ok f => setForest f
  | .error e => throw e

/-- Does something with the world. -/
def withWorld (step : World → Except ε α × World) : Work ε α := do
  let w ← get
  let (answer, world) := step w.world
  set { w with world }
  match answer with
  | .ok a => return a
  | .error e => throw e

def addIssue (i : Issue) : Work ε Unit := modify fun w => { w with issues := w.issues ++ [i] }

/-- The issues so far, which are then forgotten. -/
def takeIssues : Work ε (List Issue) := do
  let w ← get
  set { w with issues := [] }
  return w.issues

/-- Work whose failures are told in other terms. -/
def explain (tell : ε → ε') (work : Work ε α) : Work ε' α := ExceptT.adapt tell work

/-- Work whose failure is an answer. -/
def attempt (work : Work ε α) : Work ε' (Except ε α) := ExceptT.mk do
  let answer ← work.run
  return .ok answer

/-- Changes the forest on behalf of a supplied step. -/
def change (step : Forest → Except ForestError Forest) : Work Failure Unit :=
  explain Failure.ofForest (edit step)

/-- Adds nodes to a collection one after the other. -/
def addChildren (owner : NodeId) (property : String) : List NodeId → Work Failure Unit
  | [] => return ()
  | c :: rest => do
      change (·.addChild owner property c)
      addChildren owner property rest

/-- Writes attributes one after the other. -/
def setProperties (id : NodeId) : List (String × Value) → Work Failure Unit
  | [] => return ()
  | (name, v) :: rest => do
      change (·.setProperty id name v)
      setProperties id rest

/-- Adds a node of a kind on behalf of a supplied step. -/
def create (family : Family) (k : Kind) : Work Failure NodeId :=
  explain Failure.ofForest (withWorld fun w => w.create family k)

end Work

/-- How content goes into a property. -/
inductive Setter where
  /-- As the type of the node declares the property. -/
  | schema
  | custom (store : NodeId → Portion NodeId → Work Failure Unit)

/-- Where the content of a property comes from and how it goes in. -/
structure Wiring where
  name : String
  get : Forest → Source → Except Failure (Portion Source)
  /-- None if the constructor puts the content in. -/
  setter : Option Setter

namespace Wiring

def listing (w : Wiring) : String :=
  Text.fields "ChildWiring" [
    ("name", Text.quoted w.name),
    ("has_setter", Text.truth w.setter.isSome)]

end Wiring

/-- Work of a constructor that asks for the content of one of its factory's wirings. This is the only
way in which a constructor reaches the engine. One that holds the whole transformer could also have
any other source transformed, or look at other factories; such constructors are left aside. -/
abbrev ChildSupply := String → Source → Work TransformError (Portion NodeId)

/-- A rule that turns sources of one type into nodes. -/
structure Factory where
  sourceType : String
  /-- Makes the nodes of a source; the engine is there through the supply alone. -/
  construct : ChildSupply → Source → Work Failure (List NodeId)
  wirings : Table String Wiring := ∅
  finalize : Option (NodeId → Work Failure Unit) := none
  skipsChildren : Bool := false
  /-- Whether some wiring leaves its content to the constructor. -/
  constructsChildren : Bool := false

namespace Factory

/-- The key of a wiring for nodes of one type only. -/
def scopedKey (scope : QualifiedName) (name : String) : String := scope.display ++ "#" ++ name

def addWiring (f : Factory) (key : String) (w : Wiring) : Factory :=
  { f with
    wirings := f.wirings.insert key w
    constructsChildren := f.constructsChildren || w.setter.isNone }

def withChild (f : Factory) (name : String)
    (get : Forest → Source → Except Failure (Portion Source)) : Factory :=
  f.addWiring name ⟨name, get, some .schema⟩

def withScopedChild (f : Factory) (scope : QualifiedName) (name : String)
    (get : Forest → Source → Except Failure (Portion Source)) : Factory :=
  f.addWiring (scopedKey scope name) ⟨name, get, some .schema⟩

def withConstructedChild (f : Factory) (name : String)
    (get : Forest → Source → Except Failure (Portion Source)) : Factory :=
  f.addWiring name ⟨name, get, none⟩

def withChildSetter (f : Factory) (name : String)
    (get : Forest → Source → Except Failure (Portion Source))
    (store : NodeId → Portion NodeId → Work Failure Unit) : Factory :=
  f.addWiring name ⟨name, get, some (.custom store)⟩

/-- A factory whose constructor builds one node. -/
def single (sourceType : String) (construct : Source → Work Failure NodeId) : Factory :=
  { sourceType, construct := fun _ s => return [← construct s] }

/-- A factory that builds a blank node of a kind, to be filled through wirings. -/
def ofKind (sourceType : String) (family : Family) (k : Kind) : Factory :=
  single sourceType fun _ => Work.create family k

/-- A factory that takes nodes as they are. -/
def identity (sourceType : String) : Factory :=
  { single sourceType fun s => do
      match s.node? with
      | some id => return id
      | none =>
          throw ⟨"identity transformation needs an AST node, got "
            ++ (← Work.forest).sourceType s, []⟩
    with skipsChildren := true }

def listing (f : Factory) : String :=
  Text.fields "NodeFactory" [
    ("source_type", Text.quoted f.sourceType),
    ("wirings", Text.bracketed (f.wirings.keys.map Text.quoted)),
    ("skip_children", Text.truth f.skipsChildren),
    ("children_set_at_construction", Text.truth f.constructsChildren)] true

end Factory

end Arbor
