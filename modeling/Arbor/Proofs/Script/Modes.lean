import Arbor.Proofs.Script.Names
import Arbor.Proofs.Transform.Strictness

/-!
Strict and lenient parsing. A constructor of the language fails for reasons that stand in the rule
node alone. So the error nodes of the lenient tree are those of the rule nodes whose constructors
fail, with the reasons in them, and the strict parser fails with the reason of the first one; where
there is none, both do the same.
-/
namespace Arbor

theorem Transformer.mem_of_get?_foldl {fs : List Factory} {t : Transformer} {name : String}
    {f : Factory} (h : (fs.foldl addFactory t).factories.get? name = some f) :
    f ∈ fs ∨ t.factories.get? name = some f := by
  induction fs generalizing t with
  | nil => exact .inr h
  | cons g fs ih =>
    rcases ih h with hmem | hget
    · exact .inl (List.mem_cons_of_mem g hmem)
    · simp only [addFactory, Table.get?_insert] at hget
      split at hget
      · exact .inl (by simp [Option.some.inj hget])
      · exact .inr hget

namespace Script
open Transformer Mapping

section Constructors

/-- Work that fails in every workshop for the same reason, with nothing done. -/
def Refuses (work : Work Failure NodeId) : Prop :=
  ∃ cause, ∀ w, work.outcome w = (.error cause, w)

/-- Work that fails everywhere, or makes the same node everywhere. -/
def Decided (work : Work Failure NodeId) : Prop :=
  Refuses work ∨ ∃ k ∈ Kinds.family.kinds, ∃ slots, ∀ w : Workshop, Serves w.world.registry →
    Creates work k slots w

section Steps
variable {α : Type} {x : Work Failure α} {g : α → Work Failure NodeId} {n : ParseNode}

theorem Decided.bind {a : α} (hx : ∀ w, x.outcome w = (.ok a, w)) (h : Decided (g a)) :
    Decided (x >>= g) := by
  rcases h with ⟨cause, hfails⟩ | ⟨k, hk, slots, hmakes⟩
  · exact .inl ⟨cause, fun w => (Work.outcome_bind_ok (hx w) g).trans (hfails w)⟩
  · exact .inr ⟨k, hk, slots, fun w hw => .bind (hx w) (hmakes w hw)⟩

theorem Decided.of_first {cause : Failure} (hx : ∀ w, x.outcome w = (.error cause, w)) :
    Decided (x >>= g) :=
  .inl ⟨cause, fun w => Work.outcome_bind_error (hx w) g⟩

theorem decided_required {message : String} {o : Option α} (h : ∀ a, o = some a → Decided (g a)) :
    Decided (required message o >>= g) := by
  cases ho : o with
  | none => exact .of_first fun w => outcome_required_none message rfl
  | some a => exact .bind (fun w => outcome_required_some message rfl) (h a ho)

theorem decided_read {message : String} {e : Except NumberError α}
    (h : ∀ a, e = .ok a → Decided (g a)) : Decided (read message e >>= g) := by
  cases he : e with
  | error cause => exact .of_first fun w => outcome_read_error message rfl
  | ok a => exact .bind (fun w => outcome_read_ok message rfl) (h a he)

theorem decided_createWith {k : Kind} (hk : k ∈ Kinds.family.kinds)
    {attributes : List (String × Value)}
    (ha : ∀ a ∈ attributes, ∃ p ∈ k.properties, p.name = a.1 ∧ p.kind = .attr) :
    Decided (createWith k attributes) :=
  .inr ⟨k, hk, _, fun _ hw => creates_createWith hw hk ha⟩

theorem decided_create {k : Kind} (hk : k ∈ Kinds.family.kinds) : Decided (Mapping.create k) :=
  .inr ⟨k, hk, _, fun _ hw => creates_create hw hk⟩

end Steps

/-- Every factory of the language makes one node, or fails, by the rule node alone. -/
theorem exists_decided {f : Factory} (hf : f ∈ Mapping.factories) (n : ParseNode) :
    ∃ build : Source → Work Failure NodeId,
      f.construct = (fun _ s => return [← build s]) ∧ Decided (build (.tree n)) := by
  have hnode : ∀ w : Workshop, (ruleNodeOf (.tree n)).outcome w = (.ok n, w) :=
    fun _ => outcome_ruleNodeOf
  simp only [Mapping.factories, List.mem_cons, List.not_mem_nil, or_false] at hf
  rcases hf with rfl | rfl | rfl | rfl | rfl | rfl | rfl | rfl | rfl | rfl
  · exact ⟨_, rfl, decided_create (by decide)⟩
  · exact ⟨_, rfl, .bind hnode (.inl ⟨_, fun _ => rfl⟩)⟩
  · exact ⟨_, rfl, .bind hnode <| decided_required fun _ _ =>
      decided_createWith (by decide) (by simp; decide)⟩
  · exact ⟨_, rfl, decided_create (by decide)⟩
  · exact ⟨_, rfl, .bind hnode <| decided_required fun _ _ => decided_required fun _ _ =>
      decided_createWith (by decide) (by simp; decide)⟩
  · exact ⟨_, rfl, .bind hnode <| decided_read fun _ _ =>
      decided_createWith (by decide) (by simp; decide)⟩
  · exact ⟨_, rfl, .bind hnode <| decided_read fun _ _ =>
      decided_createWith (by decide) (by simp; decide)⟩
  · exact ⟨_, rfl, .bind hnode <| decided_createWith (by decide) (by simp; decide)⟩
  · exact ⟨_, rfl, .inr ⟨Kinds.valueReference, by decide, _, fun _ hw =>
      creates_valueReference hw⟩⟩
  · exact ⟨_, rfl, decided_create (by decide)⟩

theorem mem_factories {name : String} {f : Factory}
    (h : lenient.factories.get? name = some f) : f ∈ Mapping.factories := by
  rcases mem_of_get?_foldl h with hmem | hget
  · exact hmem
  · simp at hget

theorem steady_lenient (n : ParseNode) (f : Factory)
    (hf : lenient.factories.get? n.rule.name = some f) : Steady f Serves n := by
  obtain ⟨build, hconstruct, ⟨cause, hfails⟩ | ⟨k, -, slots, hmakes⟩⟩ :=
    exists_decided (mem_factories hf) n
  · refine .inl ⟨cause, fun supply w => ?_⟩
    rw [hconstruct]
    exact Work.outcome_bind_error (hfails w) _
  · refine .inr fun w hw => ?_
    obtain ⟨r, m, hmade, -⟩ := hmakes w hw
    refine ⟨[w.world.forest.size], w.withWorld r (w.world.forest.alloc m).2, fun supply => ?_⟩
    rw [hconstruct]
    exact Work.outcome_bind_ok hmade _

end Constructors

section ErrorNodes
variable {n : ParseNode} {d : Descriptor} {data : List Slot} {f : Forest} {id : NodeId}
  {parent : Option Nat}

theorem serves_blank : Serves ({} : Workshop).world.registry := serves_empty .fail

/-- An error node stands for a rule node whose constructor fails, and tells why it does. -/
theorem portrait_of_refusal (h : lenient.Depicts Serves n d data) {cause : Failure}
    (hrefusal : lenient.refusal n = some cause) :
    d.Describes .errorNode ∧ data = errorData n.rule.name cause := by
  obtain ⟨g, supply, w, hg, -, hrun⟩ := h
  have hfails := outcome_of_refusal hg (steady_lenient n g hg) serves_blank hrefusal supply w
  rcases hrun with ⟨r, m, hmade, -, -⟩ | ⟨⟨cause', hfailed, hdata⟩, r, r', hr, hregister⟩
  · cases (Prod.mk.inj (hfails.symm.trans hmade)).1
  · obtain rfl := Except.error.inj (Prod.mk.inj (hfails.symm.trans hfailed)).1
    obtain ⟨e, r'', hregister', he, -⟩ := register_errorNode hr
    obtain rfl := Except.ok.inj (Prod.mk.inj (hregister.symm.trans hregister')).1
    exact ⟨he, hdata⟩

/-- A constructor that does not fail makes the same node everywhere. -/
theorem exists_creates (h : lenient.Depicts Serves n d data) (hrefusal : lenient.refusal n = none) :
    ∃ g, lenient.factories.get? n.rule.name = some g ∧
      ∃ build : Source → Work Failure NodeId, g.construct = (fun _ s => return [← build s]) ∧
        ∃ k ∈ Kinds.family.kinds, ∃ slots, ∀ w : Workshop, Serves w.world.registry →
          Creates (build (.tree n)) k slots w := by
  obtain ⟨g, supply, w, hg, hw, -⟩ := h
  obtain ⟨build, hconstruct, ⟨cause, hfails⟩ | hmakes⟩ := exists_decided (mem_factories hg) n
  · obtain ⟨ids, w', hmade⟩ :=
      exists_outcome_of_refusal_eq_none hg (steady_lenient n g hg) hrefusal hw
    have hmade := hmade supply
    rw [hconstruct, Work.outcome_bind_error (hfails w)] at hmade
    cases (Prod.mk.inj hmade).1
  · exact ⟨g, hg, build, hconstruct, hmakes⟩

/-- A node of the language stands for a rule node whose constructor does not fail. -/
theorem exists_portrait_of_refusal_eq_none (h : lenient.Depicts Serves n d data)
    (hrefusal : lenient.refusal n = none) : ∃ k ∈ Kinds.family.kinds, d.Describes k := by
  obtain ⟨g, hg, build, hconstruct, k, hk, slots, hmakes⟩ := exists_creates h hrefusal
  exact ⟨k, hk, (depicts_of_creates h hg hconstruct hmakes).1⟩

theorem isKind_errorNode_eq (h : f.Mirrors (lenient.Depicts Serves) parent id n) :
    f.isKind id .errorNode = (lenient.refusal n).isSome := by
  obtain ⟨hnode, hm, -, -⟩ := h
  cases hrefusal : lenient.refusal n with
  | some cause =>
    have hd := (portrait_of_refusal hm.look hrefusal).1
    rw [isKind_of_describes hnode hd (by decide) (by decide)]
    rfl
  | none =>
    obtain ⟨k, hk, hd⟩ := exists_portrait_of_refusal_eq_none hm.look hrefusal
    have hne : ∀ k ∈ Kinds.family.kinds, k ≠ .errorNode := by decide
    rw [isKind_of_describes hnode hd (List.mem_append_left _ hk) (by decide)]
    simp [hne k hk]

/-- The node of a rule node whose constructor fails has the reason and the type as attributes. -/
theorem property_of_refusal (h : f.Mirrors (lenient.Depicts Serves) parent id n) {cause : Failure}
    (hrefusal : lenient.refusal n = some cause) :
    f.property id "message" = .ok (some (.string cause.render)) ∧
      f.property id "source_type" = .ok (some (.string n.rule.name)) := by
  obtain ⟨hnode, hm, -, -⟩ := h
  obtain ⟨hd, hdata⟩ := portrait_of_refusal hm.look hrefusal
  constructor
  · exact property_of_data (i := 0) (p := .attr "message" "string") hnode hm
      (by rw [hd.properties]; rfl) rfl (by rw [hdata]; rfl)
  · exact property_of_data (i := 2) (p := .attr "source_type" "string") hnode hm
      (by rw [hd.properties]; rfl) rfl (by rw [hdata]; rfl)

/-- The first error node among nodes that stand for rule nodes tells the first failure. -/
theorem find?_errorNode {ids : List NodeId} {cs : List ParseNode}
    (h : List.Forall₂ (fun j c => ∃ above, f.Mirrors (lenient.Depicts Serves) above j c) ids cs) :
    (cs.findSome? (fun c => (lenient.refusal c).map (c.rule.name, ·)) = none →
        ids.find? (f.isKind · .errorNode) = none) ∧
      ∀ sourceType cause,
        cs.findSome? (fun c => (lenient.refusal c).map (c.rule.name, ·)) =
          some (sourceType, cause) →
        ∃ first, ids.find? (f.isKind · .errorNode) = some first ∧
          f.property first "message" = .ok (some (.string cause.render)) ∧
          f.property first "source_type" = .ok (some (.string sourceType)) := by
  induction h with
  | nil => simp
  | @cons j c ids cs hfirst _ ih =>
    obtain ⟨above, hfirst⟩ := hfirst
    have hkind := isKind_errorNode_eq hfirst
    rw [findSome?_cons_eq_or]
    cases hrefusal : lenient.refusal c with
    | none =>
      rw [hrefusal] at hkind
      rw [List.find?_cons_of_neg (by simp [hkind])]
      exact ih
    | some reason =>
      rw [hrefusal] at hkind
      refine ⟨by simp, fun sourceType cause heq => ⟨j, List.find?_cons_of_pos hkind, ?_⟩⟩
      obtain ⟨rfl, rfl⟩ : c.rule.name = sourceType ∧ reason = cause := by simpa using heq
      exact property_of_refusal hfirst hrefusal

end ErrorNodes

/-- The strict parser differs from the other one in the mapping alone. -/
theorem parseWith_of_firstRefusal (input : String) (options : PipelineConfig) {w : Workshop}
    (hw : lenient.Ready Serves w) :
    (lenient.firstRefusal (treeOf input) = none →
        (language { allowGenericNode := false }).parseWith input options w =
          (language {}).parseWith input options w) ∧
      ∀ sourceType cause, lenient.firstRefusal (treeOf input) = some (sourceType, cause) →
        ∃ w', (language { allowGenericNode := false }).parseWith input options w =
            (.error (.transform (.construction sourceType cause)), w') ∧
          lenient.Ready Serves w' := by
  have hmapping : (language {}).mapping = lenient := rfl
  have hmapping' : (language { allowGenericNode := false }).mapping = lenient.strict := rfl
  obtain ⟨hsame, hfails⟩ := mapTree_strict registersErrors_serves rfl rfl serves_blank
    steady_lenient (renders_treeOf input) (Nat.le_succ (treeOf input).nodeCount) hw
  constructor
  · intro hnone
    simp only [Language.parseWith, parseFirstStage_eq, firstStageOf, hmapping, hmapping',
      hsame hnone]
    rfl
  · intro sourceType cause hsome
    obtain ⟨w', hfailed, hw'⟩ := hfails sourceType cause hsome
    refine ⟨w', ?_, hw'⟩
    simp only [Language.parseWith, parseFirstStage_eq, firstStageOf, hmapping', hfailed]

/-- Parsing any text with a new registry, leniently and strictly. If no error node is in the lenient
tree, the strict parser has the same result and leaves the same forest and notes. Otherwise it fails
at a constructor, with the source type and the explanations that the first error node of the lenient
tree, in the order of a walk, has as its attributes. -/
theorem parse_strict (input : String) (policy : ConflictPolicy) (f : Forest) :
    ∃ result root w', (language {}).parse input { world := ⟨.empty policy, f⟩ } =
        (.ok result, w') ∧
      result.root = some root ∧
      match (w'.world.forest.walk root).find? (w'.world.forest.isKind · .errorNode) with
      | none =>
          (language { allowGenericNode := false }).parse input { world := ⟨.empty policy, f⟩ } =
            (.ok result, w')
      | some first => ∃ sourceType cause,
          ((language { allowGenericNode := false }).parse input
            { world := ⟨.empty policy, f⟩ }).1 =
              .error (.transform (.construction sourceType cause)) ∧
          w'.world.forest.property first "source_type" = .ok (some (.string sourceType)) ∧
          w'.world.forest.property first "message" = .ok (some (.string cause.render)) := by
  obtain ⟨result, w', mapped, hparse, h⟩ := exists_parses input policy f
  refine ⟨result, f.size, w', hparse, h.root, ?_⟩
  obtain ⟨hsame, hfails⟩ := parseWith_of_firstRefusal input {} (ready_blank policy f)
  obtain ⟨hnone, hsome⟩ := find?_errorNode (h.mirrors_final.forall₂_walk h.size_final)
  cases hfirst : lenient.firstRefusal (treeOf input) with
  | none =>
    rw [hnone hfirst, Language.parse, hsame hfirst]
    exact hparse
  | some reason =>
    obtain ⟨sourceType, cause⟩ := reason
    obtain ⟨first, hfind, hmessage, htype⟩ := hsome sourceType cause hfirst
    rw [hfind]
    obtain ⟨w₁, hfailed, -⟩ := hfails sourceType cause hfirst
    exact ⟨sourceType, cause, congrArg Prod.fst hfailed, htype, hmessage⟩

end Script

end Arbor
