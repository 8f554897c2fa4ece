import Arbor.Proofs.Transform.Rendering

/-!
A transformer that fails beside one that puts error nodes in place of what cannot be built. Both do
the same, step by step, up to the first constructor that fails. There the strict one gives up, and
nothing on the way out changes its error; so the error is that of the first rule node, nodes before
what they contain, whose constructor fails.
-/
namespace Arbor

namespace Transformer
open ParseTree Work

/-- The transformer without stand-ins for what cannot be built. -/
def strict (t : Transformer) : Transformer := { t with config := { allowGenericNode := false } }

/-- Why the constructor for a rule node fails, if it does when nothing is there. -/
def refusal (t : Transformer) (n : ParseNode) : Option Failure :=
  (t.factories.get? n.rule.name).bind fun f =>
    match ((f.construct (fun _ _ => throw .tooDeep) (.tree n)).outcome {}).1 with
    | .error cause => some cause
    | .ok _ => none

/-- The first rule node of a tree whose constructor fails, by its type, and why it does. -/
def firstRefusal (t : Transformer) (n : ParseNode) : Option (String × Failure) :=
  n.preorder.findSome? fun c => (t.refusal c).map (c.rule.name, ·)

/-- Whether and why a constructor fails on a rule node is the same in every workshop, and what it
does otherwise is its own. -/
def Steady (f : Factory) (K : Registry → Prop) (n : ParseNode) : Prop :=
  (∃ cause, ∀ supply w, (f.construct supply (.tree n)).outcome w = (.error cause, w)) ∨
    ∀ w : Workshop, K w.world.registry → ∃ ids w', ∀ supply,
      (f.construct supply (.tree n)).outcome w = (.ok ids, w')

section Refusals
variable {t : Transformer} {K : Registry → Prop} {n : ParseNode} {f : Factory}

theorem findSome?_cons_eq_or {α β : Type} (p : α → Option β) (a : α) (as : List α) :
    (a :: as).findSome? p = (p a).or (as.findSome? p) := by
  rw [List.findSome?_cons]
  cases p a <;> rfl

theorem findSome?_flatMap_preorder (t : Transformer) (cs : List ParseNode) :
    (cs.flatMap RuleNode.preorder).findSome? (fun c => (t.refusal c).map (c.rule.name, ·)) =
      cs.findSome? t.firstRefusal := by
  induction cs with
  | nil => rfl
  | cons c cs ih =>
    rw [List.flatMap_cons, List.findSome?_append, ih, findSome?_cons_eq_or]
    rfl

theorem firstRefusal_eq (t : Transformer) (n : ParseNode) :
    t.firstRefusal n =
      ((t.refusal n).map (n.rule.name, ·)).or (n.childNodes.findSome? t.firstRefusal) := by
  rw [firstRefusal, n.preorder_eq, findSome?_cons_eq_or, findSome?_flatMap_preorder]

theorem outcome_of_refusal (hf : t.factories.get? n.rule.name = some f) (hs : Steady f K n)
    (hblank : K ({} : Workshop).world.registry) {cause : Failure} (h : t.refusal n = some cause)
    (supply : ChildSupply) (w : Workshop) :
    (f.construct supply (.tree n)).outcome w = (.error cause, w) := by
  rw [refusal, hf, Option.bind_some] at h
  rcases hs with ⟨cause', hfails⟩ | hmakes
  · rw [hfails] at h
    obtain rfl := Option.some.inj h
    exact hfails supply w
  · obtain ⟨ids, w', hmade⟩ := hmakes {} hblank
    rw [hmade] at h
    cases h

theorem exists_outcome_of_refusal_eq_none (hf : t.factories.get? n.rule.name = some f)
    (hs : Steady f K n) (h : t.refusal n = none) {w : Workshop} (hw : K w.world.registry) :
    ∃ ids w', ∀ supply, (f.construct supply (.tree n)).outcome w = (.ok ids, w') := by
  rw [refusal, hf, Option.bind_some] at h
  rcases hs with ⟨cause, hfails⟩ | hmakes
  · rw [hfails] at h
    cases h
  · exact hmakes w hw

end Refusals

section Steps
variable {α β : Type} {t : Transformer} {K : Registry → Prop} {o o' : Option (String × Failure)}

/-- Where `lenient` comes to an end, `strict` does the same; or it fails for the reason `o`, and
what it leaves is as good to go on with. -/
def Lockstep (t : Transformer) (K : Registry → Prop) (o : Option (String × Failure))
    (strict lenient : Work TransformError α) : Prop :=
  ∀ w a w', t.Ready K w → lenient.outcome w = (.ok a, w') → t.Ready K w' ∧
    match o with
    | none => strict.outcome w = (.ok a, w')
    | some (sourceType, cause) => ∃ w₁,
        strict.outcome w = (.error (.construction sourceType cause), w₁) ∧ t.Ready K w₁

theorem lockstep_of_keeps {x : Work TransformError α} (h : x.Keeps (t.Ready K)) :
    t.Lockstep K none x x := by
  intro w a w' hw hx
  have hkept := h w hw
  rw [hx] at hkept
  exact ⟨hkept, hx⟩

/-- In two steps, the first reason counts. -/
theorem lockstep_bind {x y : Work TransformError α} {g h : α → Work TransformError β}
    (hxy : t.Lockstep K o x y) (hgh : ∀ a, t.Lockstep K o' (g a) (h a)) :
    t.Lockstep K (o.or o') (x >>= g) (y >>= h) := by
  intro w b w' hw hb
  cases hy : y.outcome w with
  | mk answer w₁ =>
    cases answer with
    | error e =>
      rw [outcome_bind_error hy] at hb
      cases hb
    | ok a =>
      rw [outcome_bind_ok hy] at hb
      obtain ⟨hw₁, hx⟩ := hxy w a w₁ hw hy
      obtain ⟨hw', hg⟩ := hgh a w₁ b w' hw₁ hb
      refine ⟨hw', ?_⟩
      cases o with
      | none =>
        have hsame : (x >>= g).outcome w = (g a).outcome w₁ := outcome_bind_ok hx g
        rw [Option.none_or, hsame]
        exact hg
      | some reason =>
        obtain ⟨sourceType, cause⟩ := reason
        obtain ⟨w₂, hfails, hw₂⟩ := hx
        exact ⟨w₂, outcome_bind_error hfails g, hw₂⟩

theorem lockstep_then {x y : Work TransformError α} {g h : α → Work TransformError β}
    (hxy : t.Lockstep K o x y) (hgh : ∀ a, t.Lockstep K none (g a) (h a)) :
    t.Lockstep K o (x >>= g) (y >>= h) := by
  have hboth := lockstep_bind hxy hgh
  rwa [Option.or_none] at hboth

/-- Behind a step that both take, and that fails nowhere, they go on. -/
theorem lockstep_after {x : Work TransformError α} {g h : α → Work TransformError β}
    (hx : ∀ w, t.Ready K w → ∃ a w', x.outcome w = (.ok a, w') ∧ t.Ready K w' ∧
      t.Lockstep K o (g a) (h a)) : t.Lockstep K o (x >>= g) (x >>= h) := by
  intro w b w' hw hb
  obtain ⟨a, w₁, hxa, hw₁, hgh⟩ := hx w hw
  have hg : (x >>= g).outcome w = (g a).outcome w₁ := outcome_bind_ok hxa g
  rw [outcome_bind_ok hxa] at hb
  rw [hg]
  exact hgh w₁ b w' hw₁ hb

theorem lockstep_pure (a : α) : t.Lockstep K none (pure a) (pure a) :=
  lockstep_of_keeps (keeps_pure a)

theorem freeOfForest_ready : FreeOfForest (t.Ready K) := fun _ _ h => ⟨h.agrees, h.registry⟩

end Steps

section Engine
variable {t : Transformer} {K : Registry → Prop} {f : Factory} {nodeType : QualifiedName}
  {n : ParseNode} {strictly leniently : Making} {parent : Option NodeId} {cs : List ParseNode}

theorem lockstep_makeAll
    (hmake : ∀ c ∈ cs, t.Lockstep K (t.firstRefusal c) (strictly (.tree c) parent)
      (leniently (.tree c) parent)) :
    t.Lockstep K (cs.findSome? t.firstRefusal) (makeAll strictly parent (cs.map .tree))
      (makeAll leniently parent (cs.map .tree)) := by
  induction cs with
  | nil => exact lockstep_pure []
  | cons c cs ih =>
    have hrest := ih fun d hd => hmake d (List.mem_cons_of_mem _ hd)
    rw [findSome?_cons_eq_or]
    exact lockstep_bind (hmake c (by simp)) fun nodes =>
      lockstep_then hrest fun more => lockstep_pure (nodes ++ more)

theorem lockstep_transformRaw {raw : Portion Source} (hraw : raw.toList = cs.map .tree)
    (hmake : ∀ c ∈ cs, t.Lockstep K (t.firstRefusal c) (strictly (.tree c) parent)
      (leniently (.tree c) parent)) :
    t.Lockstep K (cs.findSome? t.firstRefusal) (transformRaw strictly raw parent)
      (transformRaw leniently raw parent) := by
  cases raw with
  | absent =>
    obtain rfl : cs = [] := by simpa [Portion.toList] using hraw
    exact lockstep_pure _
  | one s =>
    obtain ⟨c, rfl, rfl⟩ : ∃ c, cs = [c] ∧ .tree c = s := by
      simpa [Portion.toList, List.map_eq_singleton_iff, eq_comm] using hraw
    rw [findSome?_cons_eq_or, List.findSome?_nil, Option.or_none]
    exact lockstep_then (hmake c (by simp)) fun nodes => lockstep_pure (Portion.ofList nodes)
  | many ss =>
    obtain rfl : ss = cs.map .tree := hraw
    exact lockstep_then (lockstep_makeAll hmake) fun nodes => lockstep_pure (Portion.many nodes)

/-- What a wiring reads is made in lockstep, and stored by both alike. -/
theorem lockstep_wireProperty {p : Property} {v : Wiring} {raw : Portion Source} {id : NodeId}
    (hf : t.factories.get? f.sourceType = some f) (hwiring : wiringOf f nodeType p.name = some v)
    (hset : v.setter = some .schema) (hget : ∀ forest, v.get forest (.tree n) = .ok raw)
    (hraw : raw.toList = cs.map .tree)
    (hmake : ∀ c ∈ cs, t.Lockstep K (t.firstRefusal c) (strictly (.tree c) (some id))
      (leniently (.tree c) (some id))) :
    t.Lockstep K (cs.findSome? t.firstRefusal)
      (wireProperty strictly f id nodeType (.tree n) p)
      (wireProperty leniently f id nodeType (.tree n) p) := by
  refine lockstep_after fun w hw => ?_
  obtain ⟨w₁, hfind, hworld, hagrees⟩ := outcome_findWiring hw.agrees hf nodeType p.name
  refine ⟨_, w₁, hfind, ⟨hagrees, hworld ▸ hw.registry⟩, ?_⟩
  rw [hwiring]
  refine lockstep_after fun w hw => ⟨_, w, outcome_forest, hw, ?_⟩
  simp only [hget, store, hset]
  refine lockstep_then (lockstep_transformRaw hraw hmake) fun content => lockstep_of_keeps ?_
  exact keeps_explain (keeps_storeBySchema freeOfForest_ready _ _ _) _

theorem lockstep_wireProperties {ps : List Property} {id : NodeId}
    (hf : t.factories.get? f.sourceType = some f) (hs : Supplies f nodeType n ps cs)
    (hmake : ∀ c ∈ cs, t.Lockstep K (t.firstRefusal c) (strictly (.tree c) (some id))
      (leniently (.tree c) (some id))) :
    t.Lockstep K (cs.findSome? t.firstRefusal)
      (wireProperties strictly f id nodeType (.tree n) ps)
      (wireProperties leniently f id nodeType (.tree n) ps) := by
  induction hs with
  | nil => exact lockstep_pure ()
  | @unwired p ps cs hwiring _ ih =>
    have hnothing : t.Lockstep K none (wireProperty strictly f id nodeType (.tree n) p)
        (wireProperty leniently f id nodeType (.tree n) p) := by
      refine lockstep_after fun w hw => ?_
      obtain ⟨w₁, hfind, hworld, hagrees⟩ := outcome_findWiring hw.agrees hf nodeType p.name
      refine ⟨_, w₁, hfind, ⟨hagrees, hworld ▸ hw.registry⟩, ?_⟩
      rw [hwiring]
      exact lockstep_pure ()
    exact lockstep_bind hnothing fun _ => ih hmake
  | @single p ps cs v c hwiring hset hname hk hm hget _ ih =>
    have hraw : (Portion.ofOption (c.map Source.tree)).toList = c.toList.map .tree := by
      cases c <;> rfl
    rw [List.findSome?_append]
    refine lockstep_bind ?_ fun _ => ih fun d hd => hmake d (List.mem_append_right _ hd)
    exact lockstep_wireProperty hf hwiring hset hget hraw fun d hd =>
      hmake d (List.mem_append_left _ hd)
  | @collection p ps cs ds v hwiring hset hname hk hm hget _ ih =>
    rw [List.findSome?_append]
    refine lockstep_bind ?_ fun _ => ih fun d hd => hmake d (List.mem_append_right _ hd)
    exact lockstep_wireProperty hf hwiring hset hget rfl fun d hd =>
      hmake d (List.mem_append_left _ hd)

/-- What is left to do for the node that a constructor made, behind its origin. -/
theorem outcome_complete_alloc {make : Making} {w : Workshop} {r : Registry} {m : Node}
    (hhooks : t.hooks = .parseTree) (hskips : f.skipsChildren = false)
    (hconstructed : f.constructsChildren = false) (hfinalize : f.finalize = none)
    (hfresh : m.Fresh) :
    (t.complete make f (.tree n) parent [w.world.forest.size]).outcome
        (w.withWorld r (w.world.forest.alloc m).2) =
      (do
        wireProperties make f w.world.forest.size m.qualifiedName (.tree n) m.descriptor.properties
        forNodes (fun id => Work.modifyForest (·.setParent id parent)) [w.world.forest.size]
        return [w.world.forest.size] : Work TransformError (List NodeId)).outcome
        (w.withWorld r (w.world.forest.alloc { m with origin := some (.source (.tree n)) }).2) := by
  have hnode : (w.world.forest.alloc { m with origin := some (.source (.tree n)) }).2.node?
      w.world.forest.size = some { m with origin := some (.source (.tree n)) } := by
    simp [Forest.node?_alloc]
  unfold complete
  simp only [hskips, hconstructed, hfinalize]
  rw [outcome_bind_ok (outcome_setOrigin_alloc hhooks hfresh)]
  simp only [Bool.not_false, Bool.and_self, if_true]
  refine outcome_bind_congr ?_ _
  rw [outcome_forNodes_singleton, wireChildren, outcome_bind_ok outcome_forest]
  simp only [Workshop.withWorld, hnode, hhooks, Hooks.parseTree, Option.bind_some]
  rfl

/-- The engine of both, on a tree that is rendered one to one. -/
theorem lockstep_makeWithin (herror : RegistersErrors K) (hhooks : t.hooks = .parseTree)
    (hgeneric : t.config.allowGenericNode) (hblank : K ({} : Workshop).world.registry)
    (hsteady : ∀ n f, t.factories.get? n.rule.name = some f → Steady f K n) {depth : Nat}
    (h : t.Renders K n) (hdepth : n.nodeCount ≤ depth) (parent : Option NodeId) :
    t.Lockstep K (t.firstRefusal n) (t.strict.makeWithin depth (.tree n) parent)
      (t.makeWithin depth (.tree n) parent) := by
  induction depth generalizing n parent with
  | zero =>
    have hcount := n.nodeCount_eq
    omega
  | succ depth ih =>
    intro w a w' hw hmade
    have hready : t.Ready K w' := by
      obtain ⟨w₁, hmakes, hb⟩ := makes_makeWithin herror hhooks hgeneric h hdepth w parent hw
      obtain rfl : w₁ = w' := (Prod.mk.inj (hmakes.symm.trans hmade)).2
      exact hb.ready
    refine ⟨hready, ?_⟩
    obtain ⟨hf, hsource, hskips, hconstructed, hfinalize, hconstructs, hbelow⟩ := h
    next f =>
    have hs := hsteady n f hf
    obtain ⟨w₁, hresolve, hworld, hagrees⟩ := outcome_resolveFactory hw.agrees hf
    have hr : K w₁.world.registry := hworld ▸ hw.registry
    have hresolve' : (t.strict.resolveFactory (.tree n)).outcome w = (.ok (some f), w₁) := hresolve
    rw [makeWithin, outcome_bind_ok hresolve] at hmade
    dsimp only at hmade
    rw [outcome_bind_ok outcome_forest, outcome_bind_ok (outcome_attempt _)] at hmade
    rw [makeWithin, outcome_bind_ok hresolve']
    dsimp only
    rw [outcome_bind_ok outcome_forest, outcome_bind_ok (outcome_attempt _), firstRefusal_eq]
    cases hrefusal : t.refusal n with
    | some cause =>
      rw [outcome_of_refusal hf hs hblank hrefusal]
      exact ⟨w₁, rfl, hagrees, hr⟩
    | none =>
      obtain ⟨ids, w₂, hboth⟩ := exists_outcome_of_refusal_eq_none hf hs hrefusal hr
      rw [hboth] at hmade ⊢
      rcases hconstructs (transformChild (t.makeWithin depth) f) w₁ hr with
        ⟨-, cause, hfailed⟩ | ⟨r, m, hmade', hr', hfresh, hsupplies⟩
      · cases (Prod.mk.inj ((hboth _).symm.trans hfailed)).1
      · obtain ⟨hids, rfl⟩ := Prod.mk.inj ((hboth _).symm.trans hmade')
        obtain rfl := Except.ok.inj hids
        dsimp only at hmade ⊢
        have hparts : ∀ c ∈ n.childNodes, t.Lockstep K (t.firstRefusal c)
            (t.strict.makeWithin depth (.tree c) (some w₁.world.forest.size))
            (t.makeWithin depth (.tree c) (some w₁.world.forest.size)) := by
          intro c hc
          have hlt := RuleNode.nodeCount_lt_of_mem hc
          exact ih (hbelow c hc) (by omega) _
        have hwire := lockstep_wireProperties (hsource ▸ hf) hsupplies hparts
        have hrest := lockstep_then hwire fun _ => lockstep_of_keeps <|
          keeps_bind (keeps_forNodes (P := t.Ready K) (fun id =>
            keeps_modifyForest freeOfForest_ready (·.setParent id parent))
            [w₁.world.forest.size]) fun _ _ _ _ => keeps_pure [w₁.world.forest.size]
        rw [outcome_complete_alloc hhooks hskips hconstructed hfinalize hfresh] at hmade
        rw [outcome_complete_alloc (t := t.strict) hhooks hskips hconstructed hfinalize hfresh]
        have hstart : t.Ready K (w₁.withWorld r
            (w₁.world.forest.alloc { m with origin := some (.source (.tree n)) }).2) :=
          ⟨hagrees, hr'⟩
        exact (hrest _ a w' hstart hmade).2

/-- Mapping a tree strictly gives what the other one gives, or the first failure of a
constructor, without an issue and with a workshop to go on with. -/
theorem mapTree_strict (herror : RegistersErrors K) (hhooks : t.hooks = .parseTree)
    (hgeneric : t.config.allowGenericNode) (hblank : K ({} : Workshop).world.registry)
    (hsteady : ∀ n f, t.factories.get? n.rule.name = some f → Steady f K n) {depth : Nat}
    (h : t.Renders K n) (hdepth : n.nodeCount ≤ depth) {w : Workshop} (hw : t.Ready K w) :
    (t.firstRefusal n = none → t.strict.mapTree depth n w = t.mapTree depth n w) ∧
      ∀ sourceType cause, t.firstRefusal n = some (sourceType, cause) → ∃ w',
        t.strict.mapTree depth n w = (.error (.construction sourceType cause), [], w') ∧
          t.Ready K w' := by
  obtain ⟨w', hmade, -⟩ := makes_makeWithin herror hhooks hgeneric h hdepth w none hw
  have hone : (t.transform depth (.one (.tree n)) none).outcome w =
      (.ok (some w.world.forest.size), w') := by
    rw [transform, transformIntoNodes, outcome_bind_ok hmade]
    rfl
  have hlock := lockstep_makeWithin herror hhooks hgeneric hblank hsteady h hdepth none
  have hboth : t.Lockstep K (t.firstRefusal n) (t.strict.transform depth (.one (.tree n)) none)
      (t.transform depth (.one (.tree n)) none) := by
    refine lockstep_then hlock fun ids => lockstep_of_keeps ?_
    split
    · exact keeps_pure _
    · exact keeps_pure _
    · exact keeps_throw _
  have hend := (hboth w _ w' hw hone).2
  constructor
  · intro hnone
    rw [hnone] at hend
    rw [mapTree, mapTree, ← outcome, ← outcome, hend, hone]
  · intro sourceType cause hsome
    rw [hsome] at hend
    obtain ⟨w₁, hfails, hw₁⟩ := hend
    refine ⟨{ w₁ with issues := [] }, ?_, ⟨rfl, hw₁.agrees.resolved, hw₁.agrees.wired⟩,
      hw₁.registry⟩
    rw [mapTree, ← outcome, hfails]
    show (_, w₁.issues, _) = _
    rw [hw₁.agrees.quiet]

end Engine

end Transformer

end Arbor
