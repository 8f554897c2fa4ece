import Arbor.Forest.Collect
import Arbor.Json.Record
import Arbor.Transform.Factory

/-!
The transformation of sources into nodes. A source goes to the factory of its own type, or else
to the factory of the first of its supertypes that has one; the factory's nodes then get their
children from the wirings, which transform parts of the source. Sources without a factory and
constructors that fail are replaced by placeholders and error nodes, unless generic nodes are not
allowed. Which factory and which wiring serve is remembered, by type names alone.
-/
namespace Arbor

structure TransformerConfig where
  /-- Replace what cannot be built instead of failing. -/
  allowGenericNode : Bool := true
deriving DecidableEq, Inhabited

namespace TransformerConfig

def toJson (c : TransformerConfig) : Json :=
  .object [("allow_generic_node", .bool c.allowGenericNode)]

def ofJson? (j : Json) : Option TransformerConfig := do
  let f ← j.fields? ["allow_generic_node"]
  return ⟨← f.withDefault 0 true Json.bool?⟩

def listing (c : TransformerConfig) : String :=
  Text.fields "TransformerConfig" [("allow_generic_node", Text.truth c.allowGenericNode)]

end TransformerConfig

/-- Decisions that a use of the engine may make otherwise. -/
structure Hooks where
  /-- The source that the wirings of a node read. -/
  wiringSource : Forest → NodeId → Source → Source := fun _ _ s => s
  /-- The origin of what is built from a source. -/
  origin : Source → Option Origin := fun s => some (.source s)

namespace Hooks

instance : Inhabited Hooks := ⟨{}⟩

/-- What is built gets no origin. -/
def withoutOrigin : Hooks where
  origin _ := none

/-- Wirings read the part of a record that has this name, where it is a single source. -/
def redirected (part : String) : Hooks where
  wiringSource _ _ s :=
    match s with
    | .record r =>
        match r.part part with
        | .one inner => inner
        | _ => s
    | _ => s

/-- For parse trees: only rule nodes become origins, and wirings read a node's own rule node. -/
def parseTree : Hooks where
  wiringSource f id s :=
    match (f.node? id).bind (·.origin) with
    | some (.source (.tree t)) => .tree t
    | _ => s
  origin s := s.tree?.map fun t => .source (.tree t)

end Hooks

structure Transformer where
  factories : Table String Factory := ∅
  config : TransformerConfig := {}
  hooks : Hooks := {}

namespace Transformer

/-- Puts a factory in place of the one for its source type. -/
def addFactory (t : Transformer) (f : Factory) : Transformer :=
  { t with factories := t.factories.insert f.sourceType f }

/-- The first type of a chain that has a factory. -/
def firstServed (t : Transformer) (chain : List String) : Option String :=
  chain.find? t.factories.contains

/-- The factory for a source, found along its chain of types when its type is new. -/
def resolveFactory (t : Transformer) (s : Source) : Work TransformError (Option Factory) := do
  let w ← get
  let sourceType := w.world.forest.sourceType s
  match w.resolved.get? sourceType with
  | some key => return key.bind t.factories.get?
  | none =>
      let key := t.firstServed (w.world.forest.sourceChain s)
      set { w with resolved := w.resolved.insert sourceType key }
      return key.bind t.factories.get?

/-- The key of the wiring for a property: the one for this node type before the general one. -/
def wiringKey (f : Factory) (nodeType : QualifiedName) (property : String) : Option String :=
  let ownKey := Factory.scopedKey nodeType property
  if f.wirings.contains ownKey then some ownKey
  else if f.wirings.contains property then some property
  else none

def findWiring (f : Factory) (nodeType : QualifiedName) (property : String) :
    Work TransformError (Option Wiring) := do
  let w ← get
  let place := (f.sourceType, nodeType.display, property)
  match w.wired.get? place with
  | some key => return key.bind f.wirings.get?
  | none =>
      let key := wiringKey f nodeType property
      set { w with wired := w.wired.insert place key }
      return key.bind f.wirings.get?

/-- Stores content as the node's type declares the property. -/
def storeBySchema (name : String) (owner : NodeId) (content : Portion NodeId) :
    Work Failure Unit := do
  let multiple := ((← Work.forest).node? owner).any fun n =>
    (n.descriptor.property? name).any (·.multiple)
  match content with
  | .absent => return ()
  | .one c => if multiple then Work.addChildren owner name [c] else Work.change (·.setChild owner name c)
  | .many cs =>
      if multiple then Work.addChildren owner name cs
      else match cs with
        | [] => return ()
        | [c] => Work.change (·.setChild owner name c)
        | cs => throw ⟨toString cs.length ++ " nodes for single child property '" ++ name ++ "'", []⟩

/-- Stores content through a wiring. Nodes made since `mark` that a custom setter leaves aside
are dropped. -/
def store (w : Wiring) (mark : Nat) (owner : NodeId) (content : Portion NodeId) :
    Work Failure Unit :=
  match w.setter with
  | none => return ()
  | some .schema => storeBySchema w.name owner content
  | some (.custom put) => do
      put owner content
      Work.modifyForest (·.collectSince mark [])

/-- How nodes are made from one source under a parent. -/
abbrev Making := Source → Option NodeId → Work TransformError (List NodeId)

def makeAll (make : Making) (parent : Option NodeId) :
    List Source → Work TransformError (List NodeId)
  | [] => return []
  | s :: rest => do
      let nodes ← make s parent
      return nodes ++ (← makeAll make parent rest)

/-- The nodes of what a wiring read. -/
def transformRaw (make : Making) (raw : Portion Source) (parent : Option NodeId) :
    Work TransformError (Portion NodeId) :=
  match raw with
  | .absent => return .absent
  | .one s => return .ofList (← make s parent)
  | .many ss => return .many (← makeAll make parent ss)

/-- The nodes of the wiring `name`, for a constructor. -/
def transformChild (make : Making) (f : Factory) (name : String) (s : Source) :
    Work TransformError (Portion NodeId) := do
  match f.wirings.get? name with
  | none =>
      throw (.childWiring f.sourceType name ⟨"no child wiring named '" ++ name ++ "'", []⟩)
  | some w =>
      match w.get (← Work.forest) s with
      | .error cause => throw (.childWiring f.sourceType name cause)
      | .ok raw => transformRaw make raw none

/-- Fills one property of a node, if it has a wiring. -/
def wireProperty (make : Making) (f : Factory) (id : NodeId) (nodeType : QualifiedName)
    (effective : Source) (p : Property) : Work TransformError Unit := do
  match ← findWiring f nodeType p.name with
  | none => return ()
  | some w =>
      let forest ← Work.forest
      match w.get forest effective with
      | .error cause => throw (.childWiring nodeType.display p.name cause)
      | .ok raw =>
          let content ← transformRaw make raw (some id)
          let content := match content with
            | .one c => if p.multiple then .many [c] else .one c
            | content => content
          Work.explain (.childWiring nodeType.display p.name) (store w forest.size id content)

def wireProperties (make : Making) (f : Factory) (id : NodeId) (nodeType : QualifiedName)
    (effective : Source) : List Property → Work TransformError Unit
  | [] => return ()
  | p :: rest => do
      wireProperty make f id nodeType effective p
      wireProperties make f id nodeType effective rest

/-- Fills the properties of a node in their order. -/
def wireChildren (t : Transformer) (make : Making) (f : Factory) (s : Source) (id : NodeId) :
    Work TransformError Unit := do
  let forest ← Work.forest
  match forest.node? id with
  | none => return ()
  | some n =>
      wireProperties make f id n.qualifiedName (t.hooks.wiringSource forest id s)
        n.descriptor.properties

/-- Does `step` for each node. -/
def forNodes (step : NodeId → Work TransformError Unit) : List NodeId → Work TransformError Unit
  | [] => return ()
  | id :: rest => do
      step id
      forNodes step rest

def finalizeNode (finalize : NodeId → Work Failure Unit) (id : NodeId) :
    Work TransformError Unit := do
  let nodeType := (((← Work.forest).node? id).map Node.typeName).getD ""
  Work.explain (.finalization nodeType) (finalize id)

/-- A placeholder for a source that nothing maps, and an issue about it. -/
def makePlaceholder (t : Transformer) (s : Source) (parent : Option NodeId) :
    Work TransformError NodeId := do
  let sourceType := (← Work.forest).sourceType s
  if !t.config.allowGenericNode then throw (.noFactory sourceType)
  let id ← Work.explain .forest (Work.withWorld (·.createPlaceholder sourceType))
  Work.modifyForest fun f => (f.setOrigin id (t.hooks.origin s)).setParent id parent
  Work.addIssue {
    kind := .semantic
    message := "source node not mapped: " ++ sourceType
    severity := .info
    position := (← Work.forest).sourcePosition s }
  return id

/-- An error node in place of what a constructor did not build. -/
def makeError (t : Transformer) (s : Source) (parent : Option NodeId) (cause : Failure) :
    Work TransformError NodeId := do
  let sourceType := (← Work.forest).sourceType s
  let id ← Work.explain .forest (Work.withWorld (·.createError cause.render sourceType))
  Work.explain .forest (Work.edit (·.setCause id cause.rootCause))
  Work.modifyForest fun f => (f.setOrigin id (t.hooks.origin s)).setParent id parent
  return id

/-- Origin, children, finalizer and parent of what a constructor built. -/
def complete (t : Transformer) (make : Making) (f : Factory) (s : Source)
    (parent : Option NodeId) (nodes : List NodeId) : Work TransformError (List NodeId) := do
  forNodes (fun id => Work.modifyForest fun forest =>
    if ((forest.node? id).bind (·.origin)).isNone then forest.setOrigin id (t.hooks.origin s)
    else forest) nodes
  if !f.skipsChildren && !f.constructsChildren then
    forNodes (t.wireChildren make f s) nodes
  match f.finalize with
  | some finalize => forNodes (finalizeNode finalize) nodes
  | none => pure ()
  forNodes (fun id => Work.modifyForest (·.setParent id parent)) nodes
  return nodes

/-- The nodes for one source, through at most `depth` levels of sources. -/
def makeWithin (t : Transformer) : Nat → Making
  | 0, _, _ => throw .tooDeep
  | depth + 1, s, parent => do
      match ← t.resolveFactory s with
      | none => return [← t.makePlaceholder s parent]
      | some f =>
          let mark := (← Work.forest).size
          match ← Work.attempt (f.construct (transformChild (t.makeWithin depth) f) s) with
          | .ok nodes => t.complete (t.makeWithin depth) f s parent nodes
          | .error cause =>
              let forest ← Work.forest
              if t.config.allowGenericNode then
                Work.setForest (forest.collectSince mark [])
                return [← t.makeError s parent cause]
              else throw (.construction (forest.sourceType s) cause)

/-- How deep sources may be nested unless a caller knows better. -/
def anyDepth : Nat := 1000000

/-- The nodes of a source, all under `parent`. -/
def transformIntoNodes (t : Transformer) (depth : Nat) (raw : Portion Source)
    (parent : Option NodeId) : Work TransformError (List NodeId) :=
  match raw with
  | .absent => return []
  | .many _ => throw .collectionNotExpected
  | .one s => t.makeWithin depth s parent

/-- At most one node of a source. -/
def transform (t : Transformer) (depth : Nat) (raw : Portion Source) (parent : Option NodeId) :
    Work TransformError (Option NodeId) := do
  match ← t.transformIntoNodes depth raw parent with
  | [] => return none
  | [id] => return some id
  | nodes => throw (.cannotFlatten nodes.length)

/-- The tree of a parse tree and the issues met on the way, which come also with a failure. -/
def mapTree (t : Transformer) (depth : Nat) (root : ParseNode) (w : Workshop) :
    Except TransformError (Option NodeId) × List Issue × Workshop :=
  let (answer, w) := (t.transform depth (.one (.tree root)) none).run.run w
  (answer, w.issues, { w with issues := [] })

def listing (t : Transformer) (issues : Nat) : String :=
  Text.fields "Transformer" [
    ("factories", Text.bracketed (t.factories.keys.map Text.quoted)),
    ("issues", toString issues),
    ("config", t.config.listing)] true

end Transformer

end Arbor
