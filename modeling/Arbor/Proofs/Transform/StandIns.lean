import Arbor.Proofs.Forest.NewTrees
import Arbor.Proofs.Schema.PlainNames
import Arbor.Proofs.Transform.Sightings

/-!
What successful work leaves behind, and the nodes that stand in for what could not be built. Without
knowing which types a registry has, one cannot tell whether a placeholder or an error node can be
made; but if it is made, it is one new node without children, and the registry has no types but
those it had and built-in ones.
-/
namespace Arbor

namespace Work
variable {ε ε' α β : Type} {w w' : Workshop} {x : Work ε α} {g : α → Work ε β}
  {Q Q' : α → Workshop → Prop} {R : β → Workshop → Prop}

/-- What the answer tells of the outcome. -/
theorem exists_outcome_of_toOption {a : α} (h : (x.outcome w).1.toOption = some a) :
    ∃ w', x.outcome w = (.ok a, w') := by
  cases hx : x.outcome w with
  | mk answer w' =>
    rw [hx] at h
    cases answer with
    | ok b => exact ⟨w', by rw [Option.some.inj h]⟩
    | error e => cases h

/-- If the work succeeds, `Q` holds of its answer and of the workshop that it leaves. -/
def Yields (x : Work ε α) (w : Workshop) (Q : α → Workshop → Prop) : Prop :=
  ∀ ⦃a w'⦄, x.outcome w = (.ok a, w') → Q a w'

theorem yields_of_outcome {a : α} (h : x.outcome w = (.ok a, w')) (hQ : Q a w') :
    x.Yields w Q := by
  intro b w₁ hb
  rw [h] at hb
  cases hb
  exact hQ

theorem yields_pure {a : α} (h : Q a w) : (pure a : Work ε α).Yields w Q :=
  yields_of_outcome (outcome_pure a) h

theorem yields_of_failure {e : ε} (h : x.outcome w = (.error e, w')) : x.Yields w Q := by
  intro b w₁ hb
  rw [h] at hb
  cases hb

theorem yields_throw (e : ε) : (throw e : Work ε α).Yields w Q := yields_of_failure rfl

theorem yields_bind (hx : x.Yields w Q) (hg : ∀ a w', Q a w' → (g a).Yields w' R) :
    (x >>= g).Yields w R := by
  intro b w₂ hb
  cases hfirst : x.outcome w with
  | mk answer w₁ =>
    cases answer with
    | ok a =>
      rw [outcome_bind_ok hfirst] at hb
      exact hg a w₁ (hx hfirst) hb
    | error e =>
      rw [outcome_bind_error hfirst] at hb
      cases hb

/-- A step whose outcome is known. -/
theorem yields_after {a : α} (h : x.outcome w = (.ok a, w')) (hg : (g a).Yields w' R) :
    (x >>= g).Yields w R := by
  intro b w₂ hb
  rw [outcome_bind_ok h] at hb
  exact hg hb

theorem yields_explain (hx : x.Yields w Q) (tell : ε → ε') : (explain tell x).Yields w Q := by
  intro a w₁ h
  rw [outcome_explain] at h
  cases hfirst : x.outcome w with
  | mk answer w₂ =>
    rw [hfirst] at h
    cases answer with
    | ok b =>
      cases h
      exact hx hfirst
    | error e => cases h

theorem yields_edit {step : Forest → Except ForestError Forest} {Q : Unit → Workshop → Prop}
    (h : ∀ f, step w.world.forest = .ok f → Q () (w.withWorld w.world.registry f)) :
    (edit step).Yields w Q := by
  refine yields_after outcome_forest ?_
  cases hstep : step w.world.forest with
  | ok f => exact yields_of_outcome (outcome_setForest f) (h f hstep)
  | error e => exact yields_throw e

theorem yields_withWorld {step : World → Except ε α × World}
    (h : ∀ a world, step w.world = (.ok a, world) → Q a { w with world }) :
    (withWorld step).Yields w Q := by
  intro a w₁ hw₁
  rw [outcome_withWorld] at hw₁
  obtain ⟨hanswer, rfl⟩ := Prod.mk.inj hw₁
  exact h a _ (Prod.ext hanswer rfl)

end Work

namespace Node
variable {n : Node}

theorem children_of_contents (h : n.contents = []) : n.children = [] := by
  rw [contents, List.flatMap_eq_nil_iff] at h
  rw [children, List.flatMap_eq_nil_iff]
  rintro ⟨p, s⟩ hmem
  have hs := h s (List.of_mem_zip hmem).2
  simp [hs]

theorem contents_setSlot_value (h : n.contents = []) (i : Nat) (v : Value) :
    (n.setSlot i (.value v)).contents = [] := by
  rw [contents, List.flatMap_eq_nil_iff] at h ⊢
  intro s hs
  rcases List.mem_or_eq_of_mem_set hs with hs | rfl
  · exact h s hs
  · rfl

end Node

namespace Forest
variable {f g : Forest} {look : Node}

/-- The forest `g` is `f` with one more node, which has no children. -/
def Gains (f g : Forest) : Prop := ∃ look : Node, look.contents = [] ∧ g = (f.alloc look).2

theorem gains_update {change : Node → Node} (h : (change look).contents = []) :
    f.Gains ((f.alloc look).2.update f.size change) :=
  ⟨change look, h, update_alloc f look change⟩

theorem gains_setProperty (h : f.Gains g) {name : String} {v : Value} {k : Forest}
    (hk : g.setProperty f.size name v = .ok k) : f.Gains k := by
  obtain ⟨look, hlook, rfl⟩ := h
  have hnode : (f.alloc look).2.node? f.size = some look := by simp [node?_alloc]
  cases hplace : look.declaredOf .attr name with
  | error e => simp [setProperty, get, hnode, hplace, bind, Except.bind] at hk
  | ok i =>
    simp only [setProperty, get, hnode, hplace, bind, Except.bind, pure, Except.pure,
      Except.ok.injEq] at hk
    subst hk
    exact gains_update (Node.contents_setSlot_value hlook i v)

theorem gains_setProperties (h : f.Gains g) {rows : List (String × Value)} {k : Forest}
    (hk : World.setProperties g f.size rows = .ok k) : f.Gains k := by
  induction rows generalizing g with
  | nil =>
    cases hk
    exact h
  | cons row rest ih =>
    rw [World.setProperties] at hk
    cases hrow : g.setProperty f.size row.1 row.2 with
    | error e =>
      rw [hrow] at hk
      cases hk
    | ok g' =>
      rw [hrow] at hk
      exact ih (gains_setProperty h hrow) hk

theorem Gains.setOrigin (h : f.Gains g) (origin : Option Origin) :
    f.Gains (g.setOrigin f.size origin) := by
  obtain ⟨look, hlook, rfl⟩ := h
  unfold Forest.setOrigin
  split
  · split
    · exact ⟨look, hlook, rfl⟩
    · exact gains_update hlook
  · exact gains_update hlook

/-- In the end the new node gets its link. -/
theorem Gains.setParent (h : f.Gains g) (parent : Option NodeId) :
    ∃ look : Node, look.children = [] ∧
      g.setParent f.size parent = (f.alloc (look.setParent parent)).2 := by
  obtain ⟨look, hlook, rfl⟩ := h
  exact ⟨look, Node.children_of_contents hlook, update_alloc f look _⟩

end Forest

namespace World
variable {world world' : World} {id : NodeId}

theorem gains_createOf (world : World) (d : Descriptor) :
    world.forest.Gains (world.createOf d).2.forest :=
  ⟨.blank d, Node.contents_blank d, rfl⟩

theorem createPlaceholder_ok {sourceType : String}
    (hr : world.registry.All Descriptor.PlainNamed)
    (h : world.createPlaceholder sourceType = (.ok id, world')) :
    id = world.forest.size ∧ world.forest.Gains world'.forest ∧
      world'.registry.All Descriptor.PlainNamed := by
  have hregister := hr.register_builtin (show Kind.genericNode ∈ Family.builtin.kinds by decide)
  unfold createPlaceholder register at h
  cases hanswer : world.registry.register .builtin .genericNode with
  | mk answer r =>
    rw [hanswer] at h hregister
    cases answer with
    | error e => cases h
    | ok base =>
      cases h
      have hregistered := hregister.left.registerPlaceholder (hregister.given rfl)
      exact ⟨rfl, gains_createOf world _, hregistered _ _⟩

theorem createError_ok {message sourceType : String}
    (hr : world.registry.All Descriptor.PlainNamed)
    (h : world.createError message sourceType = (.ok id, world')) :
    id = world.forest.size ∧ world.forest.Gains world'.forest ∧
      world'.registry.All Descriptor.PlainNamed := by
  have hregister := hr.register_builtin (show Kind.errorNode ∈ Family.builtin.kinds by decide)
  unfold createError create register at h
  cases hanswer : world.registry.register .builtin .errorNode with
  | mk answer r =>
    rw [hanswer] at h hregister
    cases answer with
    | error e => cases h
    | ok d =>
      dsimp only at h
      split at h
      · cases h
      · next forest hset =>
        cases h
        exact ⟨rfl, Forest.gains_setProperties (gains_createOf world d) hset, hregister.left⟩

end World

/-- One new node without children, which points at `parent`, and no types but built-in ones. -/
structure Workshop.Adds (parent : Option NodeId) (w w' : Workshop) (id : NodeId) : Prop where
  place : id = w.world.forest.size
  forest : ∃ look : Node, look.children = [] ∧
    w'.world.forest = (w.world.forest.alloc (look.setParent parent)).2
  registry : w'.world.registry.All Descriptor.PlainNamed

namespace Transformer
open Work
variable {t : Transformer} {w : Workshop}

/-- A placeholder is a new node, and comes with the issue that is due to it. -/
theorem yields_makePlaceholder (hr : w.world.registry.All Descriptor.PlainNamed) (s : Source)
    (parent : Option NodeId) :
    (t.makePlaceholder s parent).Yields w fun id w' => w.Adds parent w' id ∧
      w'.toNotes = { w.toNotes with issues :=
        w.issues ++ [Sighting.issue ⟨id, s, w.world.forest, w'.world.forest⟩] } := by
  refine yields_after outcome_forest ?_
  split
  · exact yields_bind (Q := fun _ _ => False) (yields_throw _) fun _ _ h => h.elim
  · refine yields_bind (yields_explain (yields_withWorld (Q := fun id w₁ =>
      id = w.world.forest.size ∧ w.world.forest.Gains w₁.world.forest ∧
        w₁.world.registry.All Descriptor.PlainNamed ∧ w₁.toNotes = w.toNotes) ?_) _) ?_
    · intro id world hmade
      obtain ⟨hid, hgains, hregistry⟩ := World.createPlaceholder_ok hr hmade
      exact ⟨hid, hgains, hregistry, rfl⟩
    · rintro id w₁ ⟨rfl, hgains, hregistry, hnotes⟩
      obtain ⟨look, hlook, hforest⟩ := (hgains.setOrigin (t.hooks.origin s)).setParent parent
      refine yields_after (outcome_modifyForest _) (yields_after outcome_forest ?_)
      refine yields_of_outcome rfl ⟨⟨rfl, ⟨look, hlook, hforest⟩, hregistry⟩, ?_⟩
      rw [← hnotes]
      rfl

/-- An error node is a new node, and nothing is noted about it. -/
theorem yields_makeError (hr : w.world.registry.All Descriptor.PlainNamed) (s : Source)
    (parent : Option NodeId) (cause : Failure) :
    (t.makeError s parent cause).Yields w fun id w' =>
      w.Adds parent w' id ∧ w'.toNotes = w.toNotes := by
  refine yields_after outcome_forest ?_
  refine yields_bind (yields_explain (yields_withWorld (Q := fun id w₁ =>
    id = w.world.forest.size ∧ w.world.forest.Gains w₁.world.forest ∧
      w₁.world.registry.All Descriptor.PlainNamed ∧ w₁.toNotes = w.toNotes) ?_) _) ?_
  · intro id world hmade
    obtain ⟨hid, hgains, hregistry⟩ := World.createError_ok hr hmade
    exact ⟨hid, hgains, hregistry, rfl⟩
  · rintro id w₁ ⟨rfl, hgains, hregistry, hnotes⟩
    refine yields_bind (yields_explain (yields_edit (Q := fun _ w₂ =>
      w.world.forest.Gains w₂.world.forest ∧ w₂.world.registry = w₁.world.registry ∧
        w₂.toNotes = w₁.toNotes) ?_) _) ?_
    · intro f hset
      exact ⟨Forest.gains_setProperty hgains hset, rfl, rfl⟩
    · rintro _ w₂ ⟨hgains₂, hregistry₂, hnotes₂⟩
      obtain ⟨look, hlook, hforest⟩ := (hgains₂.setOrigin (t.hooks.origin s)).setParent parent
      refine yields_after (outcome_modifyForest _) (yields_pure ?_)
      exact ⟨⟨rfl, ⟨look, hlook, hforest⟩, hregistry₂ ▸ hregistry⟩, hnotes₂.trans hnotes⟩

end Transformer

end Arbor
