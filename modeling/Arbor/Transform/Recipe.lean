import Arbor.Forest.Collect
import Arbor.Transform.Factory
import Arbor.Transform.Sketch

/-!
Factories given as data. A recipe builds one node step by step and fails with the first step
that fails; a supply line says where the content of a property is read and how it is put in; a
plan is a whole factory. Names in them are looked up in the catalogue that the plan is carried
out with.
-/
namespace Arbor

/-- What an attribute of a built node gets. -/
inductive Filling where
  | constant (v : Value)
  /-- The text of the source, or null if it has none. -/
  | sourceText
  | sourceType
deriving DecidableEq, Inhabited

namespace Filling

def value (f : Forest) (s : Source) : Filling → Value
  | .constant v => v
  | .sourceText => ((f.sourceText s).map .string).getD .null
  | .sourceType => .string (f.sourceType s)

end Filling

namespace Work
variable {α : Type}

/-- Goes on with what names stand for. -/
def bound (found : Except Unbound α) : Work Failure α :=
  match found with
  | .ok a => return a
  | .error u => throw u.failure

end Work

/-- Where the node of a recipe comes from. -/
inductive Base where
  | kind (k : Kind)
  | ofType (name : QualifiedName)
  /-- The node that has this name. -/
  | known (name : String)
  | refused (failure : Failure)

namespace Base

def make (family : Family) (c : Catalogue) : Base → Work Failure NodeId
  | .kind k => Work.create family k
  | .ofType name => Work.explain Failure.ofForest (Work.withWorld fun w => w.createNamed name)
  | .known name => Work.bound (c.node name)
  | .refused failure => throw failure

end Base

/-- Content of a wiring that a recipe puts into its node by itself. -/
structure Use where
  wiring : String
  into : String
  /-- Put in one node as a child, or else every node into a collection. -/
  single : Bool := false
  reversed : Bool := false

namespace Use

/-- Puts in the one node there is, if there is one. -/
def setSingle (owner : NodeId) (property : String) (content : Portion NodeId) :
    Work Failure Unit :=
  match content.single? with
  | some c => Work.change (·.setChild owner property c)
  | none => return ()

/-- Puts the content of a wiring into `owner`; new nodes that go nowhere are dropped. -/
def apply (u : Use) (supply : ChildSupply) (s : Source) (owner : NodeId) : Work Failure Unit := do
  let mark := (← Work.forest).size
  let content ← Work.explain TransformError.failure (supply u.wiring s)
  if u.single then setSingle owner u.into content
  else Work.addChildren owner u.into (if u.reversed then content.toList.reverse else content.toList)
  Work.modifyForest (·.collectSince mark [])

end Use

/-- One node and what is done to it, in the order of the fields. -/
structure Recipe where
  issue : Option Issue := none
  base : Base
  fillings : List (String × Filling) := []
  /-- The origin to set, if any is; setting an absent one takes the origin away. -/
  origin : Option OriginSketch := none
  position : Option (Option Position) := none
  uses : List Use := []

namespace Recipe

def fill (s : Source) (id : NodeId) : List (String × Filling) → Work Failure Unit
  | [] => return ()
  | (name, filling) :: rest => do
      Work.change fun f => f.setProperty id name (filling.value f s)
      fill s id rest

def useAll (supply : ChildSupply) (s : Source) (id : NodeId) : List Use → Work Failure Unit
  | [] => return ()
  | u :: rest => do
      u.apply supply s id
      useAll supply s id rest

/-- Builds the node of a recipe. -/
def build (r : Recipe) (family : Family) (c : Catalogue) (supply : ChildSupply) (s : Source) :
    Work Failure NodeId := do
  match r.issue with
  | some issue => Work.addIssue issue
  | none => pure ()
  let id ← r.base.make family c
  fill s id r.fillings
  match r.origin with
  | some sketch =>
      let origin ← Work.bound (sketch.resolve c)
      Work.modifyForest (·.setOrigin id origin)
  | none => pure ()
  match r.position with
  | some position => Work.modifyForest (·.setPosition id position)
  | none => pure ()
  useAll supply s id r.uses
  return id

/-- Builds the nodes of recipes in turn. -/
def buildAll (family : Family) (c : Catalogue) (supply : ChildSupply) (s : Source) :
    List Recipe → Work Failure (List NodeId)
  | [] => return []
  | r :: rest => do
      let id ← r.build family c supply s
      return id :: (← buildAll family c supply s rest)

end Recipe

/-- Where the content of a property is read. -/
inductive Reading where
  /-- A part of a record. -/
  | part (name : String)
  /-- An item of a part that is a collection. -/
  | item (name : String) (index : Nat)
  /-- A child of a node. -/
  | child (property : String)
  | children (property : String)
  /-- The matches of the rule of this name under a rule node. -/
  | ofRule (rule : String)
  /-- The same content for every source. -/
  | given (content : Portion Sketch)
  | refused (failure : Failure)

namespace Reading

def recordOf (f : Forest) (s : Source) : Except Failure (SourceRecord Source) :=
  match s.record? with
  | some r => .ok r
  | none => .error ⟨"not a fixture: " ++ f.sourceType s, []⟩

def nodeOf (s : Source) : Except Failure NodeId :=
  match s.node? with
  | some id => .ok id
  | none => .error ⟨"not a node", []⟩

def treeOf (s : Source) : Except Failure ParseNode :=
  match s.tree? with
  | some n => .ok n
  | none => .error ⟨"not a parse node", []⟩

def get (c : Catalogue) : Reading → Forest → Source → Except Failure (Portion Source)
  | .part name, f, s => (recordOf f s).map (·.part name)
  | .item name i, f, s => (recordOf f s).map fun r =>
      match r.part name with
      | .many items => .ofOption items[i]?
      | _ => .absent
  | .child property, f, s => do
      let child ← (f.child (← nodeOf s) property).mapError Failure.ofForest
      return .ofOption (child.map .node)
  | .children property, f, s => do
      let children ← (f.childrenOf (← nodeOf s) property).mapError Failure.ofForest
      return .many (children.map .node)
  | .ofRule name, _, s => do
      let n ← treeOf s
      let rule ← (c.rule name).mapError Unbound.failure
      return .many ((n.nodesOf rule).map .tree)
  | .given content, _, _ => (Sketch.resolvePortion c content).mapError Unbound.failure
  | .refused failure, _, _ => .error failure

end Reading

/-- How content is put into a property. -/
inductive Placing where
  | bySchema
  /-- By the constructor of the factory. -/
  | constructed
  /-- For nodes of one type only. -/
  | scoped (nodeType : QualifiedName)
  /-- The last node alone, into a collection. -/
  | last
  | single
  /-- Only the shape of the content is written, into the attribute `label`. -/
  | shape
  | refused
  | ignored

namespace Placing

/-- Nothing, one node of a type, or a number of nodes. -/
def shapeText (f : Forest) : Portion NodeId → String
  | .absent => "none"
  | .one id => "one " ++ ((f.node? id).map Node.typeName).getD ""
  | .many ids => "many " ++ toString ids.length

/-- Writes down the shape of content. -/
def writeShape (owner : NodeId) (content : Portion NodeId) : Work Failure Unit :=
  Work.change fun f => f.setProperty owner "label" (.string (shapeText f content))

def addLast (property : String) (owner : NodeId) (content : Portion NodeId) : Work Failure Unit :=
  match content.toList.getLast? with
  | some c => Work.change (·.addChild owner property c)
  | none => return ()

def refuse (content : Portion NodeId) : Work Failure Unit :=
  throw ⟨"setter refused " ++ toString content.toList.length ++ " nodes", []⟩

end Placing

structure SupplyLine where
  property : String
  reading : Reading
  placing : Placing := .bySchema

namespace Factory

/-- The factory with one more wiring. -/
def withSupply (c : Catalogue) (f : Factory) (line : SupplyLine) : Factory :=
  let name := line.property
  let get := line.reading.get c
  match line.placing with
  | .bySchema => f.withChild name get
  | .constructed => f.withConstructedChild name get
  | .scoped nodeType => f.withScopedChild nodeType name get
  | .last => f.withChildSetter name get (Placing.addLast name)
  | .single => f.withChildSetter name get fun owner => Use.setSingle owner name
  | .shape => f.withChildSetter name get Placing.writeShape
  | .refused => f.withChildSetter name get fun _ => Placing.refuse
  | .ignored => f.withChildSetter name get fun _ _ => return ()

end Factory

/-- How a factory makes its nodes. -/
inductive Construction where
  | kind (k : Kind)
  | identity
  | recipes (rs : List Recipe)

namespace Construction

/-- The factory with this constructor and nothing else. -/
def factory (sourceType : String) (family : Family) (c : Catalogue) : Construction → Factory
  | .kind k => .ofKind sourceType family k
  | .identity => .identity sourceType
  | .recipes rs => { sourceType, construct := fun supply s => Recipe.buildAll family c supply s rs }

end Construction

/-- What is done to a node at last. -/
inductive Finish where
  | refusal (failure : Failure)
  | attributes (rows : List (String × Value))

namespace Finish

def apply : Finish → NodeId → Work Failure Unit
  | .refusal failure, _ => throw failure
  | .attributes rows, id => Work.setProperties id rows

end Finish

structure FactoryPlan where
  sourceType : String
  construction : Construction
  supplies : List SupplyLine := []
  /-- Whether children are passed over, where that differs from the constructor's habit. -/
  skipsChildren : Option Bool := none
  finish : Option Finish := none

namespace FactoryPlan

/-- The factory of a plan, with the names that the catalogue has now. -/
def factory (p : FactoryPlan) (family : Family) (c : Catalogue) : Factory :=
  let f := p.supplies.foldl (Factory.withSupply c) (p.construction.factory p.sourceType family c)
  { f with
    skipsChildren := p.skipsChildren.getD f.skipsChildren
    finalize := p.finish.map Finish.apply }

end FactoryPlan

end Arbor
