import Arbor.Proofs.Forest.Pictures
import Arbor.Proofs.Transform.Outcome
import Arbor.Script.Language

/-!
Parsing with and without positions. Positions are dropped in the last step of all, when everything
that reads them is done: literals have been read, problems placed and references linked. So a run
that drops them is a run that keeps them with one pass over the tree behind it.
-/
namespace Arbor

/-- What a parse gives, read off the forest that holds its tree. -/
structure ParseView where
  code : String
  issues : List Issue
  firstStage : FirstStage
  nodeCount : Nat
  tree : Option (List (Option NodePicture))

namespace ParseView

/-- The view without what the nodes take from the text. -/
def withoutPositions (v : ParseView) : ParseView :=
  { v with tree := v.tree.map (List.map (Option.map NodePicture.withoutPosition)) }

end ParseView

def ParsingResult.view (r : ParsingResult) (f : Forest) : ParseView where
  code := r.code
  issues := r.issues
  firstStage := r.firstStage
  nodeCount := r.nodeCount f
  tree := r.root.map f.picture

theorem ParsingResult.view_clearPositions (r : ParsingResult) {root : NodeId}
    (hroot : r.root = some root) (f : Forest) :
    r.view (f.clearPositions root) = (r.view f).withoutPositions := by
  simp only [view, nodeCount, hroot, ParseView.withoutPositions, Option.map_some,
    Forest.picture_clearPositions, Forest.walk_clearPositions]

/-- A run of the parser: its answer and the workshop that it leaves. -/
abbrev Parsed := Except PipelineError ParsingResult × Workshop

namespace Parsed

/-- What a run shows when it is done. -/
def shown (run : Parsed) : Except PipelineError ParseView :=
  run.1.map (·.view run.2.world.forest)

/-- The root of the tree that a run gives. -/
def root? (run : Parsed) : Option NodeId :=
  match run.1 with
  | .ok result => result.root
  | .error _ => none

/-- The run with a pass over its tree that drops positions. -/
def withoutPositions (run : Parsed) : Parsed :=
  match run.root? with
  | some root =>
      (run.1, run.2.withWorld run.2.world.registry (run.2.world.forest.clearPositions root))
  | none => run

section Dropping
variable (run : Parsed)

theorem kept_withoutPositions :
    run.withoutPositions.1 = run.1 ∧ run.withoutPositions.2.toNotes = run.2.toNotes ∧
      run.withoutPositions.2.world.registry = run.2.world.registry := by
  rw [withoutPositions]
  cases run.root? with
  | none => exact ⟨rfl, rfl, rfl⟩
  | some root => exact ⟨rfl, rfl, rfl⟩

theorem shown_withoutPositions :
    run.withoutPositions.shown = run.shown.map ParseView.withoutPositions := by
  obtain ⟨answer, w⟩ := run
  cases answer with
  | error e => rfl
  | ok result =>
    cases hroot : result.root with
    | none =>
      simp only [withoutPositions, root?, shown, hroot, Except.map, ParsingResult.view,
        ParseView.withoutPositions, Option.map_none]
    | some root =>
      simp only [withoutPositions, root?, shown, hroot, Except.map]
      exact congrArg Except.ok (result.view_clearPositions hroot w.world.forest)

theorem bare_withoutPositions {root : NodeId} (hroot : run.root? = some root) :
    let f := run.withoutPositions.2.world.forest
    f.walk root = run.2.world.forest.walk root ∧
      ∀ id ∈ f.walk root,
        (f.node? id).bind (·.origin) = none ∧ f.position id = none ∧ f.text id = none := by
  simp only [withoutPositions, hroot, Workshop.withWorld, Forest.walk_clearPositions, true_and]
  intro id hid
  exact ⟨Forest.origin_clearPositions hid, Forest.position_clearPositions hid,
    Forest.text_clearPositions hid⟩

end Dropping

end Parsed

/-- Dropping positions comes last. -/
theorem Language.parseWith_untracked (l : Language) (input : String) (options : PipelineConfig)
    (w : Workshop) :
    l.parseWith input { options with trackPositions := false } w =
      Parsed.withoutPositions
        (l.parseWith input { options with trackPositions := true } w) := by
  simp only [parseWith]
  cases l.parseFirstStage input options.measureLexingTime with
  | error e => rfl
  | ok first =>
    dsimp only
    cases first.root with
    | none => rfl
    | some tree =>
      dsimp only
      rcases l.mapping.mapTree (tree.nodeCount + 1) tree w with ⟨⟨e⟩ | ⟨_ | root⟩, mapped, w'⟩
      · rfl
      · rfl
      · rfl

namespace Script

/-- Without tracking, the answer is the same down to the positions of its issues, and so are the
notes and the registry. The tree differs in positions and texts alone, of which it has none. -/
theorem parseWith_tracks_positions_alone (config : TransformerConfig) (input : String)
    (options : PipelineConfig) (w : Workshop) :
    let tracked : Parsed :=
      (language config).parseWith input { options with trackPositions := true } w
    let untracked : Parsed :=
      (language config).parseWith input { options with trackPositions := false } w
    let f := untracked.2.world.forest
    untracked.1 = tracked.1 ∧ untracked.2.toNotes = tracked.2.toNotes ∧
      untracked.2.world.registry = tracked.2.world.registry ∧
      untracked.shown = tracked.shown.map ParseView.withoutPositions ∧
      ∀ root, untracked.root? = some root →
        f.walk root = tracked.2.world.forest.walk root ∧
        ∀ id ∈ f.walk root,
          (f.node? id).bind (·.origin) = none ∧ f.position id = none ∧ f.text id = none := by
  intro tracked untracked f
  have huntracked : untracked = tracked.withoutPositions :=
    (language config).parseWith_untracked input options w
  obtain ⟨hanswer, hnotes, hregistry⟩ := tracked.kept_withoutPositions
  rw [← huntracked] at hanswer hnotes hregistry
  refine ⟨hanswer, hnotes, hregistry, ?_, ?_⟩
  · rw [huntracked]
    exact tracked.shown_withoutPositions
  · intro root hroot
    have htracked : tracked.root? = some root := by rwa [Parsed.root?, ← hanswer]
    have hbare := tracked.bare_withoutPositions htracked
    rwa [← huntracked] at hbare

end Script

end Arbor
