import Arbor.Proofs.Transform.Outcome

/-!
The engine as one watches it. Whenever it puts a node in the place of a source that nothing maps,
the node, the source, and the forests before and behind it are taken down. The watched engine does
the same work: without what is taken down, its answers are those of the engine, and so are the
workshops that it leaves.
-/
namespace Arbor

/-- A node in the place of a source that nothing maps, and the forests before and behind it. -/
structure Sighting where
  node : NodeId
  source : Source
  before : Forest
  behind : Forest

/-- The type of the source. -/
def Sighting.sourceType (g : Sighting) : String := g.before.sourceType g.source

/-- The issue that is due to the source. -/
def Sighting.issue (g : Sighting) : Issue where
  kind := .semantic
  message := "source node not mapped: " ++ g.sourceType
  severity := .info
  position := g.behind.sourcePosition g.source

namespace Transformer

/-- How nodes are made from one source under a parent, as one watches it. -/
abbrev Watching := Source → Option NodeId → Work TransformError (List NodeId × List Sighting)

def watchAll (make : Watching) (parent : Option NodeId) :
    List Source → Work TransformError (List NodeId × List Sighting)
  | [] => return ([], [])
  | s :: rest => do
      let (nodes, seen) ← make s parent
      let (others, later) ← watchAll make parent rest
      return (nodes ++ others, seen ++ later)

def watchRaw (make : Watching) (raw : Portion Source) (parent : Option NodeId) :
    Work TransformError (Portion NodeId × List Sighting) :=
  match raw with
  | .absent => return (.absent, [])
  | .one s => do
      let (nodes, seen) ← make s parent
      return (.ofList nodes, seen)
  | .many ss => do
      let (nodes, seen) ← watchAll make parent ss
      return (.many nodes, seen)

def watchProperty (make : Watching) (f : Factory) (id : NodeId) (nodeType : QualifiedName)
    (effective : Source) (p : Property) : Work TransformError (List Sighting) := do
  match ← findWiring f nodeType p.name with
  | none => return []
  | some w =>
      let forest ← Work.forest
      match w.get forest effective with
      | .error cause => throw (.childWiring nodeType.display p.name cause)
      | .ok raw =>
          let (content, seen) ← watchRaw make raw (some id)
          let content := match content with
            | .one c => if p.multiple then .many [c] else .one c
            | content => content
          Work.explain (.childWiring nodeType.display p.name) (store w forest.size id content)
          return seen

def watchProperties (make : Watching) (f : Factory) (id : NodeId) (nodeType : QualifiedName)
    (effective : Source) : List Property → Work TransformError (List Sighting)
  | [] => return []
  | p :: rest => do
      let seen ← watchProperty make f id nodeType effective p
      let later ← watchProperties make f id nodeType effective rest
      return seen ++ later

def watchChildren (t : Transformer) (make : Watching) (f : Factory) (s : Source) (id : NodeId) :
    Work TransformError (List Sighting) := do
  let forest ← Work.forest
  match forest.node? id with
  | none => return []
  | some n =>
      watchProperties make f id n.qualifiedName (t.hooks.wiringSource forest id s)
        n.descriptor.properties

def watchNodes (t : Transformer) (make : Watching) (f : Factory) (s : Source) :
    List NodeId → Work TransformError (List Sighting)
  | [] => return []
  | id :: rest => do
      let seen ← t.watchChildren make f s id
      let later ← watchNodes t make f s rest
      return seen ++ later

def watchComplete (t : Transformer) (make : Watching) (f : Factory) (s : Source)
    (parent : Option NodeId) (nodes : List NodeId) :
    Work TransformError (List NodeId × List Sighting) := do
  forNodes (fun id => Work.modifyForest fun forest =>
    if ((forest.node? id).bind (·.origin)).isNone then forest.setOrigin id (t.hooks.origin s)
    else forest) nodes
  let seen ← if !f.skipsChildren && !f.constructsChildren then t.watchNodes make f s nodes
    else pure []
  match f.finalize with
  | some finalize => forNodes (finalizeNode finalize) nodes
  | none => pure ()
  forNodes (fun id => Work.modifyForest (·.setParent id parent)) nodes
  return (nodes, seen)

/-- A source that nothing maps is the only one that is taken down. -/
def watchWithin (t : Transformer) : Nat → Watching
  | 0, _, _ => throw .tooDeep
  | depth + 1, s, parent => do
      match ← t.resolveFactory s with
      | none =>
          let before ← Work.forest
          let id ← t.makePlaceholder s parent
          return ([id], [⟨id, s, before, ← Work.forest⟩])
      | some f =>
          let mark := (← Work.forest).size
          match ← Work.attempt (f.construct (transformChild (t.makeWithin depth) f) s) with
          | .ok nodes => t.watchComplete (t.watchWithin depth) f s parent nodes
          | .error cause =>
              let forest ← Work.forest
              if t.config.allowGenericNode then
                Work.setForest (forest.collectSince mark [])
                return ([← t.makeError s parent cause], [])
              else throw (.construction (forest.sourceType s) cause)

/-- Work that ends with an answer nobody needs. -/
theorem map_bind_pure {ε α : Type} (x : Work ε Unit) (a : α) :
    (fun _ => ()) <$> (x >>= fun _ => pure a) = x := by
  simp

section Erasure
variable {t : Transformer} {f : Factory} {watch : Watching} {make : Making}
  (h : ∀ s parent, Prod.fst <$> watch s parent = make s parent)
include h

theorem watchAll_nodes (parent : Option NodeId) (ss : List Source) :
    Prod.fst <$> watchAll watch parent ss = makeAll make parent ss := by
  induction ss with
  | nil => simp [watchAll, makeAll]
  | cons s rest ih => simp [watchAll, makeAll, ← ih, ← h]

theorem watchRaw_nodes (raw : Portion Source) (parent : Option NodeId) :
    Prod.fst <$> watchRaw watch raw parent = transformRaw make raw parent := by
  cases raw with
  | absent => simp [watchRaw, transformRaw]
  | one s => simp [watchRaw, transformRaw, ← h]
  | many ss => simp [watchRaw, transformRaw, ← watchAll_nodes h]

theorem watchProperty_unwatched (id : NodeId) (nodeType : QualifiedName) (effective : Source)
    (p : Property) : (fun _ => ()) <$> watchProperty watch f id nodeType effective p =
      wireProperty make f id nodeType effective p := by
  rw [watchProperty, wireProperty, map_bind]
  congr 1
  funext found
  cases found with
  | none => simp
  | some w =>
    simp only [map_bind]
    congr 1
    funext forest
    cases w.get forest effective with
    | error cause => rfl
    | ok raw =>
      dsimp only
      rw [← watchRaw_nodes h, bind_map_left, map_bind]
      congr 1
      funext made
      exact map_bind_pure _ made.2

theorem watchProperties_unwatched (id : NodeId) (nodeType : QualifiedName) (effective : Source)
    (ps : List Property) : (fun _ => ()) <$> watchProperties watch f id nodeType effective ps =
      wireProperties make f id nodeType effective ps := by
  induction ps with
  | nil => simp [watchProperties, wireProperties]
  | cons p rest ih => simp [watchProperties, wireProperties, ← ih, ← watchProperty_unwatched h]

theorem watchChildren_unwatched (s : Source) (id : NodeId) :
    (fun _ => ()) <$> t.watchChildren watch f s id = t.wireChildren make f s id := by
  rw [watchChildren, wireChildren, map_bind]
  congr 1
  funext forest
  cases forest.node? id with
  | none => simp
  | some n => exact watchProperties_unwatched h _ _ _ _

theorem watchNodes_unwatched (s : Source) (ids : List NodeId) :
    (fun _ => ()) <$> t.watchNodes watch f s ids = forNodes (t.wireChildren make f s) ids := by
  induction ids with
  | nil => simp [watchNodes, forNodes]
  | cons id rest ih => simp [watchNodes, forNodes, ← ih, ← watchChildren_unwatched h]

theorem watchComplete_nodes (s : Source) (parent : Option NodeId) (ids : List NodeId) :
    Prod.fst <$> t.watchComplete watch f s parent ids = t.complete make f s parent ids := by
  rw [watchComplete, complete, map_bind]
  congr 1
  funext _
  cases !f.skipsChildren && !f.constructsChildren with
  | true => cases f.finalize <;> simp [← watchNodes_unwatched h]
  | false => cases f.finalize <;> simp

end Erasure

/-- Watching changes nothing. -/
theorem watchWithin_nodes (t : Transformer) (depth : Nat) (s : Source) (parent : Option NodeId) :
    Prod.fst <$> t.watchWithin depth s parent = t.makeWithin depth s parent := by
  induction depth generalizing s parent with
  | zero => rfl
  | succ depth ih =>
    rw [watchWithin, makeWithin, map_bind]
    congr 1
    funext found
    cases found with
    | none =>
      -- what is read of the forest changes nothing
      simp only [map_bind]
      rfl
    | some f =>
      simp only [map_bind]
      congr 1
      funext forest
      congr 1
      funext built
      cases built with
      | ok nodes => exact watchComplete_nodes ih s parent nodes
      | error cause =>
        simp only [map_bind]
        congr 1
        funext forest
        split
        · simp
        · rfl

end Transformer

end Arbor
