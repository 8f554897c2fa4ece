import Arbor.Proofs.Script.Portraits
import Arbor.Proofs.Script.Resolution
import Arbor.Proofs.Script.Spans
import Arbor.Proofs.Transform.Completion

/-!
Parsing a text as a whole. Whatever the text is, there is a parse tree, the tree that the mapping
makes of it mirrors it, and what follows the mapping changes no more than the targets of references.
The ranges of rule nodes are nested, so the positions of nodes are, too.
-/
namespace Arbor.Script
open Transformer Mapping

/-- The tokens of a text, ready to be parsed. -/
def streamOf (input : String) : TokenStream := .ofTokens input (tokenize input).1

/-- The parse tree of a text. -/
def treeOf (input : String) : ParseNode :=
  (compilationUnit input (streamOf input).endToken (streamOf input).pending).1

/-- The issues of lexing and of parsing. -/
def earlyIssues (input : String) : List Issue :=
  let parsed := parseRule "compilationUnit" (streamOf input)
  (tokenize input).2 ++ parsed.issues ++ Language.unconsumed parsed.tokens ++
    Language.markerIssues parsed.root

/-- What lexing and parsing a text give. -/
def firstStageOf (input : String) (timed : Bool) : FirstStage where
  code := input
  root := some (treeOf input)
  issues := earlyIssues input
  tokenCount := (tokenize input).1.length
  lexingTimed := timed

/-- What parsing a text gives. The forest `mapped` is the one behind the mapping, with the new tree
from cell `start` on, and `final` is what is left in the end. -/
structure Parses (input : String) (timed : Bool) (start : Nat) (result : ParsingResult)
    (mapped final : Forest) : Prop where
  code : result.code = input
  firstStage : result.firstStage = firstStageOf input timed
  root : result.root = some start
  issues : result.issues = earlyIssues input ++
    (mapped.walk start).filterMap (unresolved mapped (declarations mapped (mapped.walk start)))
  mirrors : mapped.Mirrors (lenient.Depicts Serves) none start (treeOf input)
  size : start + (treeOf input).nodeCount ≤ mapped.size
  arranged {j : Nat} {m : Node} : start ≤ j → mapped.node? j = some m → lenient.Arranged m
  linked : final = (resolveReferences start mapped).2
  relinked : mapped.Relinked final

theorem rule_treeOf (input : String) : (treeOf input).rule = Rule.compilationUnit := rfl

theorem renders_treeOf (input : String) : lenient.Renders Serves (treeOf input) :=
  renders_compilationUnit_parsed _ _ _

theorem root_parseRule (input : String) :
    (parseRule "compilationUnit" (streamOf input)).root = some (treeOf input) := by
  simp only [parseRule, if_true]
  rfl

theorem parseFirstStage_eq (config : TransformerConfig) (input : String) (timed : Bool) :
    (language config).parseFirstStage input timed = .ok (firstStageOf input timed) := by
  have hentry : Language.invokeEntryRule frontEnd (streamOf input) =
      parseRule "compilationUnit" (streamOf input) := rfl
  simp only [Language.parseFirstStage, language, bind, Except.bind, pure, Except.pure]
  rw [← streamOf, hentry, root_parseRule, firstStageOf, earlyIssues, root_parseRule]

theorem ready_blank (policy : ConflictPolicy) (f : Forest) :
    lenient.Ready Serves { world := ⟨.empty policy, f⟩ } :=
  ⟨agrees_blank, serves_empty policy⟩

/-- Mapping the parse tree of a text, with whatever earlier parses left. -/
theorem mapTree_treeOf (input : String) {w : Workshop} (hw : lenient.Ready Serves w) :
    ∃ w' : Workshop, lenient.mapTree ((treeOf input).nodeCount + 1) (treeOf input) w =
        (.ok (some w.world.forest.size), [], w') ∧
      lenient.Built Serves w w' none [treeOf input] := by
  obtain ⟨w', hmap, hb⟩ := mapTree_of_renders registersErrors_serves rfl rfl
    (renders_treeOf input) (Nat.le_succ _) hw
  have hquiet := hb.ready.agrees.quiet
  have hsame : { w' with issues := [] } = w' := by rw [← hquiet]
  rw [hsame, hquiet] at hmap
  exact ⟨w', hmap, hb⟩

/-- Parsing always comes to an end with a tree, and leaves a workshop to go on with. -/
theorem exists_parses_within (input : String) (options : PipelineConfig)
    (htrack : options.trackPositions) {w : Workshop} (hw : lenient.Ready Serves w) :
    ∃ result w' mapped, (language {}).parseWith input options w = (.ok result, w') ∧
      Parses input options.measureLexingTime w.world.forest.size result mapped w'.world.forest ∧
      lenient.Ready Serves w' := by
  obtain ⟨w', hmap, hb⟩ := mapTree_treeOf input hw
  have hmirrors := (Forest.mirrorsAll_cons.mp hb.mirrors).1
  have hsize : w.world.forest.size + (treeOf input).nodeCount ≤ w'.world.forest.size := by
    rw [hb.size, ParseTree.countOf_cons]
    omega
  obtain ⟨final, hresolve, hfinal⟩ := resolveReferences_eq w.world.forest.size w'.world.forest
  set completed := (w'.world.forest.walk w.world.forest.size).filterMap (unresolved w'.world.forest
    (declarations w'.world.forest (w'.world.forest.walk w.world.forest.size)))
  have hmapping : (language {}).mapping = lenient := rfl
  have hfinish : (language {}).finish true w.world.forest.size w'.world.forest =
      (completed, final) := by
    rw [Language.finish, hmirrors.assignParents_eq hsize, ← hresolve]
    rfl
  refine ⟨⟨input, some w.world.forest.size, earlyIssues input ++ [] ++ completed,
    firstStageOf input options.measureLexingTime⟩,
    { w' with world := { w'.world with forest := final } }, w'.world.forest, ?_, ?_,
    hb.ready.agrees, hb.ready.registry⟩
  · rw [Language.parseWith, parseFirstStage_eq]
    simp only [firstStageOf, hmapping, hmap, htrack, hfinish]
  · exact {
      code := rfl
      firstStage := rfl
      root := rfl
      issues := by rw [List.append_nil]
      mirrors := hmirrors
      size := hsize
      arranged := hb.arranged
      linked := by rw [hresolve]
      relinked := hfinal }

/-- Parsing with a new registry. -/
theorem exists_parses (input : String) (policy : ConflictPolicy) (f : Forest) :
    ∃ result w' mapped, (language {}).parse input { world := ⟨.empty policy, f⟩ } =
      (.ok result, w') ∧ Parses input true f.size result mapped w'.world.forest := by
  obtain ⟨result, w', mapped, hparse, h, -⟩ :=
    exists_parses_within input {} rfl (ready_blank policy f)
  exact ⟨result, w', mapped, hparse, h⟩

section Positions
variable {input : String} {timed : Bool} {start : Nat} {result : ParsingResult}
  {mapped final : Forest}

theorem Parses.mirrors_final (h : Parses input timed start result mapped final) :
    final.Mirrors (lenient.Depicts Serves) none start (treeOf input) := by
  refine h.mirrors.alike fun j m _ _ hm => ?_
  rcases h.relinked.cell j with ⟨hnone, -⟩ | ⟨m₁, m', hm₁, hm', ha⟩
  · exact absurd (hm.symm.trans hnone) (by simp)
  · obtain rfl := Option.some.inj (hm.symm.trans hm₁)
    exact ⟨m', hm', ha⟩

theorem Parses.size_final (h : Parses input timed start result mapped final) :
    start + (treeOf input).nodeCount ≤ final.size := by
  rw [h.relinked.size]
  exact h.size

theorem Parses.isKind_root (h : Parses input timed start result mapped final) :
    final.isKind start Kinds.compilationUnit := by
  obtain ⟨hnode, hm, -, -⟩ := h.mirrors_final
  have hkind := (portrait_compilationUnit hm.look (rule_treeOf input)).1
  have hisA := (isA_iff_of_describes hkind (by decide) (by decide) (by decide)).mpr rfl
  rw [Forest.isKind, Forest.isA, hnode]
  exact hisA

theorem nested_treeOf (input : String) : Nested (treeOf input) := by
  obtain ⟨hline, hvalid⟩ := inLine_tokenize input
  exact nested_compilationUnit input (streamOf input).endToken (streamOf input).pending hline hvalid

variable {f : Forest} {R : ParseNode → Descriptor → List Slot → Prop} {parent : Option Nat}
  {id : Nat} {n : ParseNode}

/-- A node whose rule node is nested, in a node whose position covers it. -/
structure Placed (f : Forest) (parent : Option Nat) (n : ParseNode) : Prop where
  nested : Nested n
  inside : ∀ q ∈ parent, f.contains q ∧ ∃ above, f.position q = some above ∧
    above.contains n.position

theorem Placed.step (hm : f.Mirrors R parent id n) (h : Placed f parent n) {c : ParseNode}
    (hc : c ∈ n.childNodes) : Placed f (some id) c := by
  obtain ⟨-, hinside, -, hbelow⟩ := h.nested
  refine ⟨hbelow c hc, fun q hq => ?_⟩
  obtain rfl := Option.some.inj hq
  exact ⟨hm.contains, n.position, hm.position_eq, hinside c hc⟩

theorem Placed.positionProblem_eq_none (hm : f.Mirrors R parent id n) (h : Placed f parent n) :
    f.positionProblem id = none := by
  have hparent := hm.parent?_eq fun q hq => (h.inside q hq).1
  obtain ⟨hvalid, -, -, -⟩ := h.nested
  simp only [Forest.positionProblem, hm.position_eq, hvalid, hparent]
  cases parent with
  | none => rfl
  | some q =>
    obtain ⟨-, above, habove, hin⟩ := h.inside q rfl
    simp [habove, hin]

/-- Nodes under a nested rule node stand one behind the other. -/
theorem pairwise_children (hm : f.Mirrors R parent id n) (h : Nested n) :
    (f.children id).Pairwise fun a b => ∃ p q, f.position a = some p ∧ f.position b = some q ∧
      p.stop ≤ q.start := by
  obtain ⟨-, -, horder, -⟩ := h
  rw [hm.children_eq]
  obtain ⟨-, -, -, hbelow⟩ := hm
  generalize id + 1 = place at hbelow
  generalize n.childNodes = cs at hbelow horder
  induction cs generalizing place with
  | nil => exact .nil
  | cons c cs ih =>
    obtain ⟨hfirst, hrest⟩ := List.pairwise_cons.mp horder
    have hplaces := fun d q hd => hbelow d q (List.mem_cons_of_mem _ hd)
    refine List.pairwise_cons.mpr ⟨fun b hb => ?_, ih _ hplaces hrest⟩
    obtain ⟨d, hd⟩ := Forest.mem_placesFrom_iff.mp hb
    have hc := hbelow c place (by simp [Forest.placesFrom])
    exact ⟨_, _, hc.position_eq, (hplaces d b hd).position_eq,
      hfirst d (List.of_mem_zip hd).1⟩

end Positions

/-- Parsing any text with a new registry gives a tree whose root is a compilation unit. Every node
of it has a proper position inside that of the node above it, and of two nodes under one the first
ends before the second begins. -/
theorem parse_nests_positions (input : String) (policy : ConflictPolicy) (f : Forest) :
    ∃ result root w', (language {}).parse input { world := ⟨.empty policy, f⟩ } =
        (.ok result, w') ∧
      result.root = some root ∧ w'.world.forest.isKind root Kinds.compilationUnit ∧
      w'.world.forest.invalidPositions root = [] ∧
      ∀ id ∈ w'.world.forest.walk root,
        (∃ p, w'.world.forest.position id = some p ∧ p.isValid ∧
          ∀ above, w'.world.forest.parent? id = some above →
            ∃ q, w'.world.forest.position above = some q ∧ q.contains p) ∧
        (w'.world.forest.children id).Pairwise fun a b =>
          ∃ p q, w'.world.forest.position a = some p ∧ w'.world.forest.position b = some q ∧
            p.stop ≤ q.start := by
  obtain ⟨result, w', mapped, hparse, h⟩ := exists_parses input policy f
  have hmirrors := h.mirrors_final
  have hall := hmirrors.forall₂_range' (P := fun parent _ n => Placed w'.world.forest parent n)
    ⟨nested_treeOf input, by simp⟩ fun parent id n hm hp c place hc =>
      hp.step hm (List.of_mem_zip hc).1
  rw [← hmirrors.walk_eq h.size_final] at hall
  refine ⟨result, f.size, w', hparse, h.root, h.isKind_root, ?_, fun id hid => ?_⟩
  · rw [Forest.invalidPositions, List.filterMap_eq_nil_iff]
    intro id hid
    obtain ⟨c, -, parent, hm, hp⟩ := exists_of_forall₂ hall hid
    rw [hp.positionProblem_eq_none hm]
    rfl
  · obtain ⟨c, -, parent, hm, hp⟩ := exists_of_forall₂ hall hid
    obtain ⟨hvalid, -, -, -⟩ := hp.nested
    refine ⟨⟨c.position, hm.position_eq, hvalid, fun above habove => ?_⟩,
      pairwise_children hm hp.nested⟩
    rw [hm.parent?_eq fun q hq => (hp.inside q hq).1] at habove
    exact (hp.inside above habove).2

end Arbor.Script
