import Arbor.Proofs.Pipeline.Tracking
import Arbor.Proofs.Script.Linking

/-!
One parser for many texts. What a run leaves behind, whether it fails or not, are node types that
the kinds of the language describe, and notes that lead where the factories lead. From any such
workshop a text is mapped by the same blueprints, so every answer is the one of a new parser.
-/
namespace Arbor

namespace Script
open Transformer Forest

section Once
variable {input : String} {timed : Bool} {start start' : Nat} {result result' : ParsingResult}
  {mapped mapped' final final' : Forest}

theorem Parses.walk_mapped (h : Parses input timed start result mapped final) :
    mapped.walk start = List.range' start (treeOf input).nodeCount :=
  h.mirrors.walk_eq h.size

theorem Parses.walk_final (h : Parses input timed start result mapped final) :
    final.walk start = List.range' start (treeOf input).nodeCount :=
  h.mirrors_final.walk_eq h.size_final

/-- The picture of the tree that parsing gives, from the blueprints of the mapping. -/
theorem Parses.picture_eq (h : Parses input timed start result mapped final)
    {plan : List Blueprint} (hlength : plan.length = (treeOf input).nodeCount)
    (hplan : ∀ b ∈ plan, b.Sound plan.length) (hcarries : Carries mapped start plan) :
    final.picture start = plan.map fun b => some ((b.linked plan).picture plan.length) := by
  have hlinked : Carries final start (plan.map (·.linked plan)) := by
    rw [h.linked]
    exact hcarries.resolveReferences hplan (hlength ▸ h.walk_mapped)
  have hclosed : ∀ b ∈ plan.map (·.linked plan), b.Closed (plan.map (·.linked plan)).length := by
    intro b hb
    obtain ⟨c, hc, rfl⟩ := List.mem_map.mp hb
    rw [List.length_map]
    exact closed_linked hplan hc
  have hwalk : final.walk start = List.range' start (plan.map (·.linked plan)).length := by
    rw [h.walk_final, List.length_map, hlength]
  rw [hlinked.picture_eq hclosed hwalk, List.map_map, List.length_map]
  rfl

/-- Parsing a text gives the same to see wherever its tree is put. -/
theorem Parses.view_eq (h : Parses input timed start result mapped final)
    (h' : Parses input timed start' result' mapped' final') :
    result.view final = result'.view final' := by
  obtain ⟨plan, hlength, hplan, hcarries, hcarries'⟩ := exists_plan h.mirrors h'.mirrors
    (fun _ _ => h.arranged) (fun _ _ => h'.arranged)
  rw [← hlength] at hplan
  have hissues : result.issues = result'.issues := by
    rw [h.issues, h'.issues, h.walk_mapped, h'.walk_mapped, ← hlength,
      hcarries.filterMap_unresolved hplan, hcarries'.filterMap_unresolved hplan]
  have hpicture : final.picture start = final'.picture start' := by
    rw [h.picture_eq hlength hplan hcarries, h'.picture_eq hlength hplan hcarries']
  simp only [ParsingResult.view, ParsingResult.nodeCount, h.code, h'.code, hissues, h.firstStage,
    h'.firstStage, h.root, h'.root, Option.map_some, hpicture, h.walk_final, h'.walk_final,
    List.length_range']

end Once

section Runs
variable (input : String) (options : PipelineConfig) {w w' : Workshop}
  (hw : lenient.Ready Serves w) (hw' : lenient.Ready Serves w')
include hw hw'

theorem shown_lenient :
    Parsed.shown ((language {}).parseWith input options w) =
        Parsed.shown ((language {}).parseWith input options w') ∧
      lenient.Ready Serves ((language {}).parseWith input options w).2 := by
  obtain ⟨result, v, mapped, hrun, h, hv⟩ := exists_parses_within input
    { options with trackPositions := true } rfl hw
  obtain ⟨result', v', mapped', hrun', h', -⟩ := exists_parses_within input
    { options with trackPositions := true } rfl hw'
  have htracked : Parsed.shown (.ok result, v) = Parsed.shown (.ok result', v') :=
    congrArg Except.ok (h.view_eq h')
  cases htrack : options.trackPositions with
  | true =>
    have hsame : { options with trackPositions := true } = options := by rw [← htrack]
    rw [hsame] at hrun hrun'
    rw [hrun, hrun']
    exact ⟨htracked, hv⟩
  | false =>
    have hsame : { options with trackPositions := false } = options := by rw [← htrack]
    have huntracked := (language {}).parseWith_untracked input options
    rw [hsame] at huntracked
    rw [huntracked, huntracked, hrun, hrun', Parsed.shown_withoutPositions,
      Parsed.shown_withoutPositions, htracked]
    refine ⟨rfl, ?_⟩
    obtain ⟨-, hnotes, hregistry⟩ := Parsed.kept_withoutPositions (.ok result, v)
    exact ⟨hnotes ▸ hv.agrees, hregistry ▸ hv.registry⟩

/-- What a parser shows does not depend on what earlier runs left, and it leaves no less. -/
theorem shown_of_ready (config : TransformerConfig) :
    Parsed.shown ((language config).parseWith input options w) =
        Parsed.shown ((language config).parseWith input options w') ∧
      lenient.Ready Serves ((language config).parseWith input options w).2 := by
  obtain ⟨_ | _⟩ := config
  · obtain ⟨hsame, hfails⟩ := parseWith_of_firstRefusal input options hw
    obtain ⟨hsame', hfails'⟩ := parseWith_of_firstRefusal input options hw'
    cases hfirst : lenient.firstRefusal (treeOf input) with
    | none =>
      rw [hsame hfirst, hsame' hfirst]
      exact shown_lenient input options hw hw'
    | some reason =>
      obtain ⟨v, hfailed, hv⟩ := hfails reason.1 reason.2 hfirst
      obtain ⟨v', hfailed', -⟩ := hfails' reason.1 reason.2 hfirst
      rw [hfailed, hfailed']
      exact ⟨rfl, hv⟩
  · exact shown_lenient input options hw hw'

end Runs

/-- One use of a parser: a text and its options, and what becomes before that of the trees that
are there. -/
structure Job where
  input : String
  options : PipelineConfig
  meanwhile : Forest → Forest

/-- A run of the parser on a job. -/
def Job.run (job : Job) (l : Language) (w : Workshop) : Parsed :=
  l.parseWith job.input job.options
    { w with world := ⟨w.world.registry, job.meanwhile w.world.forest⟩ }

/-- What a parser shows for jobs one after the other, each time when it is done with one. -/
def answers (l : Language) : List Job → Workshop → List (Except PipelineError ParseView)
  | [], _ => []
  | job :: rest, w => (job.run l w).shown :: answers l rest (job.run l w).2

/-- What a parser has made and kept after jobs. -/
def Job.leave (l : Language) (jobs : List Job) (w : Workshop) : Workshop :=
  jobs.foldl (fun w job => (job.run l w).2) w

theorem ready_leave (config : TransformerConfig) {w : Workshop} (hw : lenient.Ready Serves w)
    (jobs : List Job) : lenient.Ready Serves (Job.leave (language config) jobs w) := by
  induction jobs generalizing w with
  | nil => exact hw
  | cons job rest ih =>
    have hready : lenient.Ready Serves
        { w with world := ⟨w.world.registry, job.meanwhile w.world.forest⟩ } :=
      ⟨hw.agrees, hw.registry⟩
    exact ih (shown_of_ready job.input job.options hready hready config).2

/-- After whatever jobs, and whatever became of the trees they made, parsing gives a tree. -/
theorem exists_parses_after (input : String) (policy : ConflictPolicy) (f : Forest)
    (jobs : List Job) (meanwhile : Forest → Forest) :
    ∃ start result w' mapped, Job.run ⟨input, {}, meanwhile⟩ (language {})
        (Job.leave (language {}) jobs { world := ⟨.empty policy, f⟩ }) = (.ok result, w') ∧
      Parses input true start result mapped w'.world.forest := by
  have hready := ready_leave {} (ready_blank policy f) jobs
  set w := Job.leave (language {}) jobs { world := ⟨.empty policy, f⟩ }
  have hready' : lenient.Ready Serves
      { w with world := ⟨w.world.registry, meanwhile w.world.forest⟩ } :=
    ⟨hready.agrees, hready.registry⟩
  obtain ⟨result, w', mapped, hrun, h, -⟩ := exists_parses_within input {} rfl hready'
  exact ⟨_, result, w', mapped, hrun, h⟩

theorem answers_of_ready (config : TransformerConfig) {w v : Workshop}
    (hw : lenient.Ready Serves w) (hv : lenient.Ready Serves v) (jobs : List Job) :
    answers (language config) jobs w = jobs.map fun job =>
      Parsed.shown ((language config).parseWith job.input job.options v) := by
  induction jobs generalizing w with
  | nil => rfl
  | cons job rest ih =>
    have hready : lenient.Ready Serves
        { w with world := ⟨w.world.registry, job.meanwhile w.world.forest⟩ } :=
      ⟨hw.agrees, hw.registry⟩
    obtain ⟨hshown, hnext⟩ := shown_of_ready job.input job.options hready hv config
    have hrest : answers (language config) rest (job.run (language config) w).2 = _ := ih hnext
    rw [answers, List.map_cons, hrest]
    exact congrArg (· :: _) hshown

/-- A parser, strict or lenient, that started with a new registry answers every job as a new parser
with a new registry does, also after runs that failed: with the same error, or with the same issues,
the same counts and the same tree. -/
theorem answers_eq_map (config : TransformerConfig) (policy policy' : ConflictPolicy)
    (f f' : Forest) (jobs : List Job) :
    answers (language config) jobs { world := ⟨.empty policy, f⟩ } = jobs.map fun job =>
      Parsed.shown ((language config).parseWith job.input job.options
        { world := ⟨.empty policy', f'⟩ }) :=
  answers_of_ready config (ready_blank policy f) (ready_blank policy' f') jobs

end Script

end Arbor
