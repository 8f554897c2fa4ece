import Arbor.Proofs.Transform.Outcome

/-!
What a whole transformation keeps. The engine looks for factories and wirings and writes down what
it found; all else that it does changes the world or adds issues. So a transformation keeps whatever
these steps keep, together with the steps that the factories supply, however deep the sources are
nested and whether it fails or not.
-/
namespace Arbor

/-- Supplied steps that keep `P`, where a constructor may ask for children. -/
structure Factory.Keeps (f : Factory) (P : Workshop → Prop) : Prop where
  construct (supply : ChildSupply) (hsupply : ∀ name s, (supply name s).Keeps P) (s : Source) :
    (f.construct supply s).Keeps P
  finalize : ∀ g ∈ f.finalize, ∀ id, (g id).Keeps P
  store {key : String} {w : Wiring} {put : NodeId → Portion NodeId → Work Failure Unit}
    (hw : f.wirings.get? key = some w) (hput : w.setter = some (.custom put)) (id : NodeId)
    (content : Portion NodeId) : (put id content).Keeps P

theorem Factory.keeps_ofKind {P : Workshop → Prop} (hP : ∀ w world, P w → P { w with world })
    (sourceType : String) (family : Family) (k : Kind) : (ofKind sourceType family k).Keeps P where
  construct _ _ s := by
    refine Work.keeps_bind (Work.keeps_explain (fun w hw => ?_) _) fun _ _ _ _ => Work.keeps_pure _
    rw [Work.outcome_withWorld]
    exact hP w _ hw
  finalize g hg := by simp [ofKind, single] at hg
  store hw := by simp [ofKind, single] at hw

namespace Transformer
open Work
variable {t : Transformer} {f : Factory} {P : Workshop → Prop} {make : Making}

/-- Each step that a transformation is made of keeps `P`. -/
structure Upholds (t : Transformer) (P : Workshop → Prop) : Prop where
  world (w : Workshop) (world : World) : P w → P { w with world }
  issues (w : Workshop) (issues : List Issue) : P w → P { w with issues }
  resolve (s : Source) : (t.resolveFactory s).Keeps P
  find {name : String} {f : Factory} (hf : t.factories.get? name = some f)
    (nodeType : QualifiedName) (property : String) : (findWiring f nodeType property).Keeps P
  supplied {name : String} {f : Factory} (hf : t.factories.get? name = some f) : f.Keeps P

theorem Upholds.freeOfForest (h : t.Upholds P) : FreeOfForest P := fun w _ => h.world w _

theorem Upholds.keeps_withWorld (h : t.Upholds P) {ε α : Type}
    (step : World → Except ε α × World) : (withWorld step).Keeps P := by
  intro w hw
  rw [outcome_withWorld]
  exact h.world w _ hw

theorem Upholds.keeps_addIssue (h : t.Upholds P) {ε : Type} (i : Issue) :
    (addIssue i : Work ε Unit).Keeps P :=
  fun w => h.issues w _

/-- A factory that is found is one of the transformer. -/
theorem exists_name_of_resolveFactory {s : Source} {w w' : Workshop}
    (h : (t.resolveFactory s).outcome w = (.ok (some f), w')) :
    ∃ name, t.factories.get? name = some f := by
  rw [resolveFactory, outcome_bind_ok outcome_get] at h
  dsimp only at h
  split at h
  · next key _ =>
    simp only [outcome_pure, Prod.mk.injEq, Except.ok.injEq] at h
    obtain ⟨name, -, hname⟩ := Option.bind_eq_some_iff.mp h.1
    exact ⟨name, hname⟩
  · rw [outcome_bind_ok outcome_set] at h
    simp only [outcome_pure, Prod.mk.injEq, Except.ok.injEq] at h
    obtain ⟨name, -, hname⟩ := Option.bind_eq_some_iff.mp h.1
    exact ⟨name, hname⟩

/-- A wiring that is found is one of the factory. -/
theorem exists_key_of_findWiring {nodeType : QualifiedName} {property : String} {v : Wiring}
    {w w' : Workshop} (h : (findWiring f nodeType property).outcome w = (.ok (some v), w')) :
    ∃ key, f.wirings.get? key = some v := by
  rw [findWiring, outcome_bind_ok outcome_get] at h
  dsimp only at h
  split at h
  · simp only [outcome_pure, Prod.mk.injEq, Except.ok.injEq] at h
    obtain ⟨key, -, hkey⟩ := Option.bind_eq_some_iff.mp h.1
    exact ⟨key, hkey⟩
  · rw [outcome_bind_ok outcome_set] at h
    simp only [outcome_pure, Prod.mk.injEq, Except.ok.injEq] at h
    obtain ⟨key, -, hkey⟩ := Option.bind_eq_some_iff.mp h.1
    exact ⟨key, hkey⟩

section Making
variable (hmake : ∀ s parent, (make s parent).Keeps P)
include hmake

theorem keeps_makeAll (parent : Option NodeId) (ss : List Source) :
    (makeAll make parent ss).Keeps P := by
  induction ss with
  | nil => exact keeps_pure []
  | cons s rest ih =>
    refine keeps_bind (hmake s parent) fun nodes _ _ _ => ?_
    exact keeps_bind ih fun _ _ _ _ => keeps_pure _

theorem keeps_transformRaw (raw : Portion Source) (parent : Option NodeId) :
    (transformRaw make raw parent).Keeps P := by
  cases raw with
  | absent => exact keeps_pure _
  | one s => exact keeps_bind (hmake s parent) fun _ _ _ _ => keeps_pure _
  | many ss => exact keeps_bind (keeps_makeAll hmake parent ss) fun _ _ _ _ => keeps_pure _

theorem keeps_transformChild (name : String) (s : Source) :
    (transformChild make f name s).Keeps P := by
  unfold transformChild
  split
  · exact keeps_throw _
  · refine keeps_bind keeps_forest fun forest _ _ _ => ?_
    split
    · exact keeps_throw _
    · exact keeps_transformRaw hmake _ _

end Making

section Filling
variable {name : String}

theorem Upholds.keeps_store (h : t.Upholds P) (hf : t.factories.get? name = some f) {key : String}
    {v : Wiring} (hv : f.wirings.get? key = some v) (mark : Nat) (owner : NodeId)
    (content : Portion NodeId) : (store v mark owner content).Keeps P := by
  unfold store
  split
  · exact keeps_pure ()
  · exact keeps_storeBySchema h.freeOfForest _ _ _
  · next put hput =>
    refine keeps_bind ((h.supplied hf).store hv hput owner content) fun _ _ _ _ => ?_
    exact keeps_modifyForest h.freeOfForest _

variable (h : t.Upholds P) (hf : t.factories.get? name = some f)
  (hmake : ∀ s parent, (make s parent).Keeps P)
include h hf hmake

theorem Upholds.keeps_wireProperty (id : NodeId) (nodeType : QualifiedName) (effective : Source)
    (p : Property) : (wireProperty make f id nodeType effective p).Keeps P := by
  refine keeps_bind (h.find hf _ _) fun found w w' hfound => ?_
  cases found with
  | none => exact keeps_pure ()
  | some v =>
    obtain ⟨key, hkey⟩ := exists_key_of_findWiring hfound
    refine keeps_bind keeps_forest fun forest _ _ _ => ?_
    dsimp only
    split
    · exact keeps_throw _
    · refine keeps_bind (keeps_transformRaw hmake _ _) fun content _ _ _ => ?_
      exact keeps_explain (h.keeps_store hf hkey _ _ _) _

theorem Upholds.keeps_wireProperties (id : NodeId) (nodeType : QualifiedName) (effective : Source)
    (ps : List Property) : (wireProperties make f id nodeType effective ps).Keeps P := by
  induction ps with
  | nil => exact keeps_pure ()
  | cons p rest ih =>
    exact keeps_bind (h.keeps_wireProperty hf hmake _ _ _ p) fun _ _ _ _ => ih

theorem Upholds.keeps_wireChildren (s : Source) (id : NodeId) :
    (t.wireChildren make f s id).Keeps P := by
  refine keeps_bind keeps_forest fun forest _ _ _ => ?_
  split
  · exact keeps_pure ()
  · exact h.keeps_wireProperties hf hmake _ _ _ _

theorem Upholds.keeps_complete (s : Source) (parent : Option NodeId) (ids : List NodeId) :
    (t.complete make f s parent ids).Keeps P := by
  have hparents : (do
      forNodes (fun id => Work.modifyForest (·.setParent id parent)) ids
      return ids : Work TransformError (List NodeId)).Keeps P :=
    keeps_bind (keeps_forNodes (fun _ => keeps_modifyForest h.freeOfForest _) _)
      fun _ _ _ _ => keeps_pure _
  refine keeps_bind (keeps_forNodes (fun _ => keeps_modifyForest h.freeOfForest _) _)
    fun _ _ _ _ => ?_
  have hwire := keeps_forNodes (h.keeps_wireChildren hf hmake s) ids
  cases hfinalize : f.finalize with
  | none =>
    dsimp only
    split
    · exact keeps_bind hwire fun _ _ _ _ => hparents
    · exact hparents
  | some finalize =>
    have hfinal : (do
        forNodes (finalizeNode finalize) ids
        forNodes (fun id => Work.modifyForest (·.setParent id parent)) ids
        return ids : Work TransformError (List NodeId)).Keeps P := by
      have hone (id : NodeId) : (finalizeNode finalize id).Keeps P :=
        keeps_bind keeps_forest fun _ _ _ _ =>
          keeps_explain ((h.supplied hf).finalize finalize hfinalize id) _
      exact keeps_bind (keeps_forNodes hone _) fun _ _ _ _ => hparents
    dsimp only
    split
    · exact keeps_bind hwire fun _ _ _ _ => hfinal
    · exact hfinal

end Filling

theorem Upholds.keeps_makePlaceholder (h : t.Upholds P) (s : Source) (parent : Option NodeId) :
    (t.makePlaceholder s parent).Keeps P := by
  refine keeps_bind keeps_forest fun forest _ _ _ => ?_
  split
  · exact keeps_bind (keeps_throw _) fun _ _ _ h => nomatch h
  · refine keeps_bind (keeps_explain (h.keeps_withWorld _) _) fun id _ _ _ => ?_
    refine keeps_bind (keeps_modifyForest h.freeOfForest _) fun _ _ _ _ => ?_
    refine keeps_bind keeps_forest fun _ _ _ _ => ?_
    exact keeps_bind (h.keeps_addIssue _) fun _ _ _ _ => keeps_pure _

theorem Upholds.keeps_makeError (h : t.Upholds P) (s : Source) (parent : Option NodeId)
    (cause : Failure) : (t.makeError s parent cause).Keeps P := by
  refine keeps_bind keeps_forest fun forest _ _ _ => ?_
  refine keeps_bind (keeps_explain (h.keeps_withWorld _) _) fun id _ _ _ => ?_
  refine keeps_bind (keeps_explain (keeps_edit h.freeOfForest _) _) fun _ _ _ _ => ?_
  exact keeps_bind (keeps_modifyForest h.freeOfForest _) fun _ _ _ _ => keeps_pure _

theorem Upholds.keeps_makeWithin (h : t.Upholds P) (depth : Nat) (s : Source)
    (parent : Option NodeId) : (t.makeWithin depth s parent).Keeps P := by
  induction depth generalizing s parent with
  | zero => exact keeps_throw _
  | succ depth ih =>
    refine keeps_bind (h.resolve s) fun found w w' hfound => ?_
    cases found with
    | none => exact keeps_bind (h.keeps_makePlaceholder s parent) fun _ _ _ _ => keeps_pure _
    | some f =>
      obtain ⟨name, hf⟩ := exists_name_of_resolveFactory hfound
      refine keeps_bind keeps_forest fun _ _ _ _ => ?_
      refine keeps_bind (keeps_attempt ?_) fun built _ _ _ => ?_
      · exact (h.supplied hf).construct _ (fun name s => keeps_transformChild ih name s) s
      · cases built with
        | ok nodes => exact h.keeps_complete hf ih s parent nodes
        | error cause =>
          refine keeps_bind keeps_forest fun forest _ _ _ => ?_
          split
          · refine keeps_bind (keeps_setForest h.freeOfForest _) fun _ _ _ _ => ?_
            exact keeps_bind (h.keeps_makeError s parent cause) fun _ _ _ _ => keeps_pure _
          · exact keeps_throw _

/-- A transformation keeps what its steps keep. -/
theorem Upholds.keeps_transformIntoNodes (h : t.Upholds P) (depth : Nat) (raw : Portion Source)
    (parent : Option NodeId) : (t.transformIntoNodes depth raw parent).Keeps P := by
  cases raw with
  | absent => exact keeps_pure _
  | one s => exact h.keeps_makeWithin depth s parent
  | many ss => exact keeps_throw _

end Transformer

end Arbor
