import Arbor.Pipeline.Basic
import Arbor.Transform.Recipe

/-!
A world under manual work. Nodes are reached by names, traversals may be under way, and there
are a transformer and a parser whose notes outlive a single job. The transformer is kept as
plans, which see the names of the moment. A node stays as long as a name, a traversal, a named
source or another node keeps it; `settle` drops the others.
-/
namespace Arbor

structure Workbench extends Catalogue where
  world : World := {}
  /-- The kinds that plans may mention. -/
  family : Family := .builtin
  cursors : Table String Cursor := ∅
  plans : Table String FactoryPlan := ∅
  config : TransformerConfig := {}
  hooks : Hooks := {}
  notes : Notes := {}
  /-- The language in use, once a text was parsed. -/
  language : Option Language := none
  parserNotes : Notes := {}

namespace Workbench

instance : Inhabited Workbench := ⟨{}⟩

def forest (b : Workbench) : Forest := b.world.forest

def setForest (b : Workbench) (forest : Forest) : Workbench :=
  { b with world := { b.world with forest } }

/-- Whatever keeps nodes on the bench. -/
def roots (b : Workbench) : List NodeId :=
  b.nodes.values ++ b.cursors.values.flatMap Cursor.held ++ b.sources.values.flatMap Source.nodes

/-- Drops the nodes that neither the bench nor `inHand` keeps. -/
def settle (b : Workbench) (inHand : List NodeId) : Workbench :=
  b.setForest (b.forest.collect (b.roots ++ inHand))

/-- Names a node. What had the name before may be dropped by the next `settle`. -/
def name (b : Workbench) (name : String) (id : NodeId) : Workbench :=
  { b with nodes := b.nodes.insert name id }

/-- The results of the next `steps` steps of a traversal, with none behind its end. -/
def advance (b : Workbench) (name : String) : Nat → Cursor → List (Option NodeId) × Workbench
  | 0, c => ([], { b with cursors := b.cursors.insert name c })
  | steps + 1, c =>
      let (found, c) := c.next b.forest
      let (rest, b) := b.advance name steps c
      (found :: rest, b)

/-- Starts a new transformer without factories. -/
def useTransformer (b : Workbench) (config : TransformerConfig) (hooks : Hooks)
    (issues : List Issue) : Workbench :=
  { b with plans := ∅, config, hooks, notes := { issues } }

/-- Adds a factory; which factory serves a source is then found out anew. -/
def addFactory (b : Workbench) (p : FactoryPlan) : Workbench :=
  { b with plans := b.plans.insert p.sourceType p, notes := b.notes.forgetFactories }

/-- The transformer as it works now. -/
def transformer (b : Workbench) : Transformer where
  factories := ⟨b.plans.entries.map fun (key, p) => (key, p.factory b.family b.toCatalogue)⟩
  config := b.config
  hooks := b.hooks

/-- Does something with the world. -/
def withWorld {ε α : Type} (b : Workbench) (op : World → Except ε α × World) :
    Except ε α × Workbench :=
  let (answer, world) := op b.world
  (answer, { b with world })

/-- Does something with the registry. -/
def withRegistry {ε α : Type} (b : Workbench) (op : Registry → Except ε α × Registry) :
    Except ε α × Workbench :=
  b.withWorld fun w =>
    let (answer, registry) := op w.registry
    (answer, { w with registry })

/-- Does a job of the transformer. -/
def work {ε α : Type} (b : Workbench) (job : Work ε α) : Except ε α × Workbench :=
  let (answer, shop) := job.run.run ⟨b.notes, b.world⟩
  (answer, { b with world := shop.world, notes := shop.toNotes })

/-- Maps a parse tree; its issues are given and forgotten. -/
def mapTree (b : Workbench) (root : ParseNode) :
    Except PipelineError (Option NodeId) × List Issue × Workbench :=
  let (answer, issues, shop) := b.transformer.mapTree Transformer.anyDepth root ⟨b.notes, b.world⟩
  (answer.mapError .transform, issues, { b with world := shop.world, notes := shop.toNotes })

/-- Parses a text with the language in use, or else with `language` from now on. -/
def parse (b : Workbench) (language : Language) (text : String) (config : PipelineConfig) :
    Except PipelineError ParsingResult × Workbench :=
  let language := b.language.getD language
  let (answer, shop) := language.parseWith text config ⟨b.parserNotes, b.world⟩
  (answer, { b with
    world := shop.world, parserNotes := shop.toNotes, language := some language })

end Workbench

end Arbor
