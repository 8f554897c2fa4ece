import Arbor.Proofs.Script.Registration
import Arbor.Proofs.Transform.Rendering
import Arbor.Script.Mapping

/-!
What the factories of the language render. Their constructors make one node each, or fail before
they make any. Those that may fail are for rules without parts, apart from the set statement, which
fails where its variable is missing; so a rule node is rendered if its parts are, stand where the
mapping looks for them, and in a set statement come with a variable.
-/
namespace Arbor.Script
open Transformer Mapping

section Constructors
variable {k : Kind} {n : ParseNode} {w : Workshop}

/-- Work that makes a node of a kind with these slots and nothing else. -/
def Creates (work : Work Failure NodeId) (k : Kind) (slots : List Slot) (w : Workshop) : Prop :=
  ∃ r m, work.outcome w =
      (.ok w.world.forest.size, w.withWorld r (w.world.forest.alloc m).2) ∧
    Serves r ∧ m.Fresh ∧ m.descriptor.Describes k ∧ m.slots = slots

/-- Work that fails with nothing done. -/
def Fails (work : Work Failure NodeId) (w : Workshop) : Prop :=
  ∃ cause, work.outcome w = (.error cause, w)

/-- Work that makes a node for a rule node, or fails with nothing done on one without parts. -/
def Builds (work : Work Failure NodeId) (k : Kind) (n : ParseNode) (w : Workshop) : Prop :=
  (n.childNodes = [] ∧ Fails work w) ∨ ∃ slots, Creates work k slots w

theorem constructs_of_builds {build : Source → Work Failure NodeId} {f : Factory}
    (hconstruct : f.construct = fun _ s => return [← build s])
    (hb : ∀ w : Workshop, Serves w.world.registry → Builds (build (.tree n)) k n w)
    (hs : Supplies f k.qualifiedName n k.properties n.childNodes) : Constructs f Serves n := by
  intro supply w hw
  rw [hconstruct]
  rcases hb w hw with ⟨hleaf, cause, hfailed⟩ | ⟨slots, r, m, hmade, hr, hfresh, hd, -⟩
  · exact .inl ⟨hleaf, cause, Work.outcome_bind_error hfailed _⟩
  · refine .inr ⟨r, m, Work.outcome_bind_ok hmade _, hr, hfresh, ?_⟩
    rw [Node.qualifiedName, hd.qualifiedName, hd.properties]
    exact hs

theorem nodup_properties : ∀ k ∈ Kinds.family.kinds, (k.properties.map (·.name)).Nodup := by decide

theorem creates_create (hw : Serves w.world.registry) (hk : k ∈ Kinds.family.kinds) :
    Creates (create k) k (List.replicate k.properties.length .absent) w := by
  obtain ⟨d, r, hregister, hd, hr⟩ := register_of_serves hw hk
  have hnames : (d.properties.map (·.name)).Nodup := hd.properties ▸ nodup_properties k hk
  refine ⟨r, Node.blank d, ?_, hr, Node.fresh_blank hnames, hd, by rw [Node.blank, hd.properties]⟩
  have hcreate : w.world.create Kinds.family k =
      (.ok w.world.forest.size, ⟨r, (w.world.forest.alloc (Node.blank d)).2⟩) := by
    simp only [World.create, World.register, hregister]
    rfl
  rw [create, Work.create, Work.outcome_explain, Work.outcome_withWorld, hcreate]
  rfl

/-- Slots after attributes of a kind were written into them. -/
def written (k : Kind) (slots : List Slot) (attributes : List (String × Value)) : List Slot :=
  attributes.foldl
    (fun slots a => slots.set (k.properties.findIdx (·.name = a.1)) (.value a.2)) slots

theorem outcome_setProperties {attributes : List (String × Value)} {m : Node} {r : Registry}
    (hm : m.Fresh) (hd : m.descriptor.Describes k)
    (ha : ∀ a ∈ attributes, ∃ p ∈ k.properties, p.name = a.1 ∧ p.kind = .attr) :
    ∃ m', (Work.setProperties w.world.forest.size attributes).outcome
        (w.withWorld r (w.world.forest.alloc m).2) =
          (.ok (), w.withWorld r (w.world.forest.alloc m').2) ∧
      m'.Fresh ∧ m'.descriptor.Describes k ∧ m'.slots = written k m.slots attributes := by
  induction attributes generalizing m with
  | nil => exact ⟨m, rfl, hm, hd, rfl⟩
  | cons a attributes ih =>
    obtain ⟨p, hp, hname, hkind⟩ := ha a (by simp)
    obtain ⟨m₁, hset, hm₁, hd₁, hslots₁⟩ := Forest.setProperty_alloc w.world.forest hm
      (hd.properties ▸ hp) hkind a.2
    obtain ⟨m₂, hrest, hm₂, hd₂, hslots₂⟩ := ih hm₁ (hd₁ ▸ hd) fun b hb => ha b (by simp [hb])
    rw [hname] at hset hslots₁
    refine ⟨m₂, ?_, hm₂, hd₂, ?_⟩
    · rw [Work.setProperties, Work.outcome_bind_ok (Work.outcome_change hset)]
      exact hrest
    · rw [hslots₂, hslots₁, hd.properties]
      rfl

theorem creates_createWith (hw : Serves w.world.registry) (hk : k ∈ Kinds.family.kinds)
    {attributes : List (String × Value)}
    (ha : ∀ a ∈ attributes, ∃ p ∈ k.properties, p.name = a.1 ∧ p.kind = .attr) :
    Creates (createWith k attributes) k
      (written k (List.replicate k.properties.length .absent) attributes) w := by
  obtain ⟨r, m, hcreate, hr, hm, hd, hslots⟩ := creates_create hw hk
  obtain ⟨m₁, hset, hm₁, hd₁, hslots₁⟩ := outcome_setProperties hm hd ha
  refine ⟨r, m₁, ?_, hr, hm₁, hd₁, by rw [hslots₁, hslots]⟩
  rw [createWith, Work.outcome_bind_ok hcreate, Work.outcome_bind_ok hset]
  rfl

section Steps
variable {α : Type} {x : Work Failure α} {g : α → Work Failure NodeId} {slots : List Slot}

theorem Creates.bind {a : α} (hx : x.outcome w = (.ok a, w)) (h : Creates (g a) k slots w) :
    Creates (x >>= g) k slots w := by
  obtain ⟨r, m, hmade, hrest⟩ := h
  exact ⟨r, m, (Work.outcome_bind_ok hx g).trans hmade, hrest⟩

theorem Fails.bind {a : α} (hx : x.outcome w = (.ok a, w)) (h : Fails (g a) w) :
    Fails (x >>= g) w := by
  obtain ⟨cause, hfailed⟩ := h
  exact ⟨cause, (Work.outcome_bind_ok hx g).trans hfailed⟩

theorem Fails.of_first {cause : Failure} (hx : x.outcome w = (.error cause, w)) :
    Fails (x >>= g) w :=
  ⟨cause, Work.outcome_bind_error hx g⟩

end Steps

theorem outcome_ruleNodeOf : (ruleNodeOf (.tree n)).outcome w = (.ok n, w) := rfl

theorem outcome_required_some {α : Type} (message : String) {o : Option α} {a : α}
    (h : o = some a) : (required message o).outcome w = (.ok a, w) := by
  rw [h]
  rfl

theorem outcome_required_none {α : Type} (message : String) {o : Option α} (h : o = none) :
    (required message o).outcome w = (.error ⟨message, []⟩, w) := by
  rw [h]
  rfl

theorem outcome_read_ok {α : Type} (message : String) {e : Except NumberError α} {a : α}
    (h : e = .ok a) : (read message e).outcome w = (.ok a, w) := by
  rw [h]
  rfl

theorem outcome_read_error {α : Type} (message : String) {e : Except NumberError α}
    {cause : NumberError} (h : e = .error cause) :
    (read message e).outcome w = (.error ⟨message, [cause.message]⟩, w) := by
  rw [h]
  rfl

theorem fails_setStatement (h : n.tokenOf? identifier = none) :
    Fails (Mapping.setStatement (.tree n)) w :=
  .bind outcome_ruleNodeOf (.of_first (outcome_required_none _ h))

theorem fails_inputDeclaration
    (h : n.tokenOf? identifier = none ∨ typeKeywords.findSome? n.tokenOf? = none) :
    Fails (Mapping.inputDeclaration (.tree n)) w := by
  refine .bind outcome_ruleNodeOf ?_
  cases hname : n.tokenOf? identifier with
  | none => exact .of_first (outcome_required_none _ rfl)
  | some name =>
    have htype := h.resolve_left (by simp [hname])
    exact .bind (outcome_required_some _ rfl) (.of_first (outcome_required_none _ htype))

theorem fails_intLiteral {e : NumberError} (h : Integer64.read n.text = .error e) :
    Fails (Mapping.intLiteral (.tree n)) w :=
  .bind outcome_ruleNodeOf (.of_first (outcome_read_error _ h))

theorem fails_decLiteral {e : NumberError} (h : Binary64.read n.text = .error e) :
    Fails (Mapping.decLiteral (.tree n)) w :=
  .bind outcome_ruleNodeOf (.of_first (outcome_read_error _ h))

variable (hw : Serves w.world.registry)
include hw

theorem creates_setStatement {target : Token} (h : n.tokenOf? identifier = some target) :
    Creates (Mapping.setStatement (.tree n)) Kinds.setStatement
      [.value (.string target.text), .absent] w :=
  .bind outcome_ruleNodeOf <| .bind (outcome_required_some _ h) <|
    creates_createWith hw (by decide) (by simp; decide)

theorem creates_inputDeclaration {name type : Token} (hname : n.tokenOf? identifier = some name)
    (htype : typeKeywords.findSome? n.tokenOf? = some type) :
    Creates (Mapping.inputDeclaration (.tree n)) Kinds.inputDeclaration
      [.value (.string name.text), .value (.string type.text)] w :=
  .bind outcome_ruleNodeOf <| .bind (outcome_required_some _ hname) <|
    .bind (outcome_required_some _ htype) <| creates_createWith hw (by decide) (by simp; decide)

theorem creates_intLiteral {i : Int} (h : Integer64.read n.text = .ok i) :
    Creates (Mapping.intLiteral (.tree n)) Kinds.intLiteral [.value (.integer i)] w :=
  .bind outcome_ruleNodeOf <| .bind (outcome_read_ok _ h) <|
    creates_createWith hw (by decide) (by simp; decide)

theorem creates_decLiteral {x : Binary64} (h : Binary64.read n.text = .ok x) :
    Creates (Mapping.decLiteral (.tree n)) Kinds.decLiteral [.value (.decimal x)] w :=
  .bind outcome_ruleNodeOf <| .bind (outcome_read_ok _ h) <|
    creates_createWith hw (by decide) (by simp; decide)

theorem creates_stringLiteral :
    Creates (Mapping.stringLiteral (.tree n)) Kinds.stringLiteral
      [.value (.string (unquoted n.text))] w :=
  .bind outcome_ruleNodeOf <| creates_createWith hw (by decide) (by simp; decide)

theorem creates_valueReference :
    Creates (Mapping.valueReference (.tree n)) Kinds.valueReference
      [.reference ⟨n.text, none⟩] w := by
  obtain ⟨r, m, hcreate, hr, hm, hd, hslots⟩ :=
    creates_create hw (k := Kinds.valueReference) (by decide)
  obtain ⟨m₁, hset, hm₁, hd₁, hslots₁⟩ := Forest.setReference_alloc w.world.forest hm
    (p := .reference "variable" "simple.Statement") (by rw [hd.properties]; decide) rfl
    (r := ⟨n.text, none⟩) rfl
  refine ⟨r, m₁, ?_, hr, hm₁, hd₁ ▸ hd, ?_⟩
  · rw [Mapping.valueReference, Work.outcome_bind_ok hcreate,
      Work.outcome_bind_ok outcome_ruleNodeOf, Work.outcome_bind_ok (Work.outcome_change hset)]
    rfl
  · rw [hslots₁, hslots, hd.properties]
    rfl

/-- A set statement fails only where its variable is missing. -/
theorem builds_setStatement (htoken : n.childNodes = [] ∨ (n.tokenOf? identifier).isSome) :
    Builds (Mapping.setStatement (.tree n)) Kinds.setStatement n w := by
  cases hid : n.tokenOf? identifier with
  | some target => exact .inr ⟨_, creates_setStatement hw hid⟩
  | none =>
    rw [hid] at htoken
    exact .inl ⟨by simpa using htoken, fails_setStatement hid⟩

theorem builds_inputDeclaration (hleaf : n.childNodes = []) :
    Builds (Mapping.inputDeclaration (.tree n)) Kinds.inputDeclaration n w := by
  cases hname : n.tokenOf? identifier with
  | none => exact .inl ⟨hleaf, fails_inputDeclaration (.inl hname)⟩
  | some name =>
    cases htype : typeKeywords.findSome? n.tokenOf? with
    | none => exact .inl ⟨hleaf, fails_inputDeclaration (.inr htype)⟩
    | some type => exact .inr ⟨_, creates_inputDeclaration hw hname htype⟩

theorem builds_intLiteral (hleaf : n.childNodes = []) :
    Builds (Mapping.intLiteral (.tree n)) Kinds.intLiteral n w := by
  cases hread : Integer64.read n.text with
  | error e => exact .inl ⟨hleaf, fails_intLiteral hread⟩
  | ok i => exact .inr ⟨_, creates_intLiteral hw hread⟩

theorem builds_decLiteral (hleaf : n.childNodes = []) :
    Builds (Mapping.decLiteral (.tree n)) Kinds.decLiteral n w := by
  cases hread : Binary64.read n.text with
  | error e => exact .inl ⟨hleaf, fails_decLiteral hread⟩
  | ok x => exact .inr ⟨_, creates_decLiteral hw hread⟩

theorem builds_stringLiteral : Builds (Mapping.stringLiteral (.tree n)) Kinds.stringLiteral n w :=
  .inr ⟨_, creates_stringLiteral hw⟩

theorem builds_valueReference :
    Builds (Mapping.valueReference (.tree n)) Kinds.valueReference n w :=
  .inr ⟨_, creates_valueReference hw⟩

end Constructors

/-- The mapping with error nodes for what cannot be built. -/
def lenient : Transformer := transformer factories { allowGenericNode := true }

section Rules
variable {n : ParseNode}

theorem supplies_nothing (sourceType : String) (build : Source → Work Failure NodeId)
    (nodeType : QualifiedName) (n : ParseNode) (ps : List Property) :
    Supplies (.single sourceType build) nodeType n ps [] := by
  induction ps with
  | nil => exact .nil
  | cons p ps ih => exact .unwired rfl ih

/-- A rule without parts, for which the mapping has a constructor alone. -/
theorem renders_leaf {build : Source → Work Failure NodeId} {k : Kind}
    (hf : lenient.factories.get? n.rule.name = some (.single n.rule.name build))
    (hleaf : n.childNodes = [])
    (hb : ∀ w : Workshop, Serves w.world.registry → Builds (build (.tree n)) k n w) :
    lenient.Renders Serves n := by
  have hconstructs : Constructs (.single n.rule.name build) Serves n := by
    refine constructs_of_builds rfl hb ?_
    rw [hleaf]
    exact supplies_nothing _ _ _ _ _
  exact .intro hf rfl rfl rfl rfl hconstructs (by simp [hleaf])

theorem renders_operand {t : Token} {rule : RuleKind} (hrule : operandRule? t = some rule)
    (source : String) : lenient.Renders Serves (operand source rule t) := by
  have hleaf : (operand source rule t).childNodes = [] := rfl
  unfold operandRule? at hrule
  split_ifs at hrule <;> cases hrule
  · exact renders_leaf rfl hleaf fun w hw => builds_intLiteral hw hleaf
  · exact renders_leaf rfl hleaf fun w hw => builds_decLiteral hw hleaf
  · exact renders_leaf rfl hleaf fun w hw => builds_stringLiteral hw
  · exact renders_leaf rfl hleaf fun w hw => builds_valueReference hw

theorem renders_inputDeclaration (hrule : n.rule = Rule.inputDeclaration)
    (hleaf : n.childNodes = []) : lenient.Renders Serves n :=
  renders_leaf (hrule ▸ rfl) hleaf fun _ hw => builds_inputDeclaration hw hleaf

/-- Rule nodes that match a rule and are rendered. -/
def Parts (rule : RuleKind) (cs : List ParseNode) : Prop :=
  ∀ c ∈ cs, c.isRule rule ∧ lenient.Renders Serves c

theorem Parts.nodesOf {rule : RuleKind} (h : Parts rule n.childNodes) :
    n.nodesOf rule = n.childNodes :=
  List.filter_eq_self.mpr fun c hc => (h c hc).1

theorem expressionAt_tree (hparts : Parts Rule.expression n.childNodes) (i : Nat)
    (forest : Forest) :
    expressionAt i forest (.tree n) = .ok (.ofOption (n.childNodes[i]?.map .tree)) := by
  rw [← hparts.nodesOf]
  rfl

/-- The one wiring of statements with a value. -/
theorem supplies_value {f : Factory} {nodeType : QualifiedName} {value : Option ParseNode}
    (hw : wiringOf f nodeType "value" = some ⟨"value", expressionAt 0, some .schema⟩)
    (hvalue : n.childNodes = value.toList) (hparts : Parts Rule.expression n.childNodes) :
    Supplies f nodeType n [.child "value" "simple.Expression"] n.childNodes := by
  have hfirst : n.childNodes[0]? = value := by rw [hvalue]; cases value <;> rfl
  have hget : ∀ forest, expressionAt 0 forest (.tree n) =
      .ok (.ofOption (value.map .tree)) := by
    intro forest
    rw [← hfirst]
    exact expressionAt_tree hparts 0 forest
  rw [hvalue, ← List.append_nil value.toList]
  exact .single hw rfl rfl rfl rfl hget .nil

theorem renders_sum {left : ParseNode} {right : Option ParseNode}
    (hrule : n.rule = Rule.sumExpression) (hvalue : n.childNodes = left :: right.toList)
    (hparts : Parts Rule.expression (left :: right.toList)) : lenient.Renders Serves n := by
  rw [← hvalue] at hparts
  have hf : lenient.factories.get? n.rule.name =
      some (((ofKind Rule.sumExpression Kinds.sumExpression).withChild "left"
        (expressionAt 0)).withChild "right" (expressionAt 1)) := by rw [hrule]; rfl
  refine .intro hf (by rw [hrule]; rfl) rfl rfl rfl ?_ fun c hc => (hparts c hc).2
  refine constructs_of_builds (k := Kinds.sumExpression) rfl
    (fun w hw => .inr ⟨_, creates_create hw (by decide)⟩) ?_
  have hfirst : n.childNodes[0]? = some left := by rw [hvalue]; rfl
  have hsecond : n.childNodes[1]? = right := by rw [hvalue]; cases right <;> rfl
  rw [hvalue, ← List.append_nil right.toList]
  refine .single (c := some left) rfl rfl rfl rfl rfl (fun forest => ?_) ?_
  · rw [← hfirst]
    exact expressionAt_tree hparts 0 forest
  · refine .single (c := right) rfl rfl rfl rfl rfl (fun forest => ?_) .nil
    rw [← hsecond]
    exact expressionAt_tree hparts 1 forest

theorem renders_displayStatement {value : Option ParseNode}
    (hrule : n.rule = Rule.displayStatement) (hvalue : n.childNodes = value.toList)
    (hparts : Parts Rule.expression value.toList) : lenient.Renders Serves n := by
  rw [← hvalue] at hparts
  have hf : lenient.factories.get? n.rule.name =
      some ((ofKind Rule.displayStatement Kinds.displayStatement).withChild "value"
        (expressionAt 0)) := by rw [hrule]; rfl
  refine .intro hf (by rw [hrule]; rfl) rfl rfl rfl ?_ fun c hc => (hparts c hc).2
  exact constructs_of_builds (k := Kinds.displayStatement) rfl
    (fun w hw => .inr ⟨_, creates_create hw (by decide)⟩) (supplies_value rfl hvalue hparts)

/-- A set statement that has a value has a variable. -/
theorem renders_setStatement {value : Option ParseNode} (hrule : n.rule = Rule.setStatement)
    (hvalue : n.childNodes = value.toList)
    (htoken : n.childNodes = [] ∨ (n.tokenOf? identifier).isSome)
    (hparts : Parts Rule.expression value.toList) : lenient.Renders Serves n := by
  rw [← hvalue] at hparts
  have hf : lenient.factories.get? n.rule.name =
      some ((Factory.single Rule.setStatement.name Mapping.setStatement).withChild "value"
        (expressionAt 0)) := by rw [hrule]; rfl
  refine .intro hf (by rw [hrule]; rfl) rfl rfl rfl ?_ fun c hc => (hparts c hc).2
  exact constructs_of_builds rfl (fun w hw => builds_setStatement hw htoken)
    (.unwired rfl (supplies_value rfl hvalue hparts))

theorem renders_compilationUnit (hrule : n.rule = Rule.compilationUnit)
    (hparts : Parts Rule.statement n.childNodes) : lenient.Renders Serves n := by
  have hf : lenient.factories.get? n.rule.name =
      some ((ofKind Rule.compilationUnit Kinds.compilationUnit).withChild "statements"
        (partsOf Rule.statement)) := by rw [hrule]; rfl
  refine .intro hf (by rw [hrule]; rfl) rfl rfl rfl ?_ fun c hc => (hparts c hc).2
  refine constructs_of_builds (k := Kinds.compilationUnit) rfl
    (fun w hw => .inr ⟨_, creates_create hw (by decide)⟩) ?_
  rw [← List.append_nil n.childNodes]
  refine .collection rfl rfl rfl rfl rfl (fun forest => ?_) .nil
  rw [← hparts.nodesOf]
  rfl

theorem registersErrors_serves : RegistersErrors Serves := by
  intro r hr
  obtain ⟨d, r', hregister, hd, hr'⟩ := register_errorNode hr
  exact ⟨d, r', hregister, hd.properties, hr'⟩

end Rules

end Arbor.Script
