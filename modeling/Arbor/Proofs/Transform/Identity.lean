import Arbor.Proofs.Forest.Outcomes
import Arbor.Proofs.Forest.Traversals
import Arbor.Proofs.Transform.Dispatch

/-!
Nodes that stand for themselves. An identity factory gives back the node that it is asked to
transform. Like every other result the node is then linked to the parent of the transformation and
to nothing if there is none, while the slots stay as they are. A node that no other one holds comes
through unharmed; a node that lies in a tree is left in the slot of its holder, to which it does not
point back any more.
-/
namespace Arbor

namespace Forest
variable {f g : Forest} {id : NodeId}

/-- What a node holds points back at it. -/
def Linked (f : Forest) : Prop := ∀ p c, f.Holds p c → f.parent? c = some p

theorem WellContained.linked (h : f.WellContained) : f.Linked := fun _ _ hc => h.holds_iff.mp hc

/-- Where children stay and only the node `id` loses its link, links still follow what is held if
and only if nothing holds that node. -/
theorem linked_iff_of_unlinked (h : f.Linked) (hchildren : ∀ p, g.children p = f.children p)
    (hlinks : ∀ j, g.parent? j = if j = id then none else f.parent? j) :
    g.Linked ↔ ∀ p, ¬ f.Holds p id := by
  have hholds : ∀ p c, g.Holds p c ↔ f.Holds p c := fun p c => by rw [Holds, Holds, hchildren]
  constructor
  · intro hg p hp
    have hlink := hg p id ((hholds p id).mpr hp)
    rw [hlinks, if_pos rfl] at hlink
    cases hlink
  · intro hfree p c hc
    have hc := (hholds p c).mp hc
    have hne : c ≠ id := fun he => hfree p (he ▸ hc)
    rw [hlinks, if_neg hne, h p c hc]

theorem HeldOnce.congr (h : f.HeldOnce) (hchildren : ∀ p, g.children p = f.children p) :
    g.HeldOnce where
  nodup p := by simpa only [hchildren] using h.nodup p
  sole hp hq := by
    rw [Holds, hchildren] at hp hq
    exact h.sole hp hq

theorem children_setParent (f : Forest) (id : NodeId) (parent : Option NodeId) (j : NodeId) :
    (f.setParent id parent).children j = f.children j :=
  children_update_of_children fun _ => rfl

theorem children_setOrigin (f : Forest) (id : NodeId) (origin : Option Origin) (j : NodeId) :
    (f.setOrigin id origin).children j = f.children j := by
  rcases setOrigin_cases f id origin with hsame | hset
  · rw [hsame]
  · rw [hset]
    exact children_update_of_children fun _ => rfl

theorem parent?_setOrigin (f : Forest) (id : NodeId) (origin : Option Origin) (j : NodeId) :
    (f.setOrigin id origin).parent? j = f.parent? j := by
  rcases setOrigin_cases f id origin with hsame | hset
  · rw [hsame]
  · rw [hset]
    exact parent?_update_of_parent fun _ => rfl

end Forest

theorem Factory.discreet_identity (sourceType : String) : (identity sourceType).Discreet where
  construct P supply hsupply s := by
    refine Work.keeps_bind ?_ fun _ _ _ _ => Work.keeps_pure _
    dsimp only
    split
    · exact Work.keeps_pure _
    · exact Work.keeps_bind Work.keeps_forest fun _ _ _ _ => Work.keeps_throw _
  finalize P g hg := by simp [identity, single] at hg
  store P key w put hw := by simp [identity, single] at hw

namespace Transformer
open Work Deed
variable {t : Transformer} {w : Workshop} {f : Factory} {id : NodeId} {n : Node}

/-- The forest after a node was transformed into itself: a node without an origin got the one that
the hooks give, and the parent is that of the transformation. -/
def settled (t : Transformer) (forest : Forest) (id : NodeId) (parent : Option NodeId) : Forest :=
  (if ((forest.node? id).bind (·.origin)).isNone then
      forest.setOrigin id (t.hooks.origin (.node id))
    else forest).setParent id parent

theorem outcome_transform_identity (hown : t.OwnFirst w.resolved)
    (hn : w.world.forest.node? id = some n)
    (hf : t.factories.get? n.typeName = some (.identity n.typeName)) (depth : Nat)
    (parent : Option NodeId) :
    ∃ resolved, (t.transform (depth + 1) (.one (.node id)) parent).outcome w =
      (.ok (some id), Workshop.withWorld { w with resolved } w.world.registry
        (t.settled w.world.forest id parent)) := by
  have htype : w.world.forest.sourceType (.node id) = n.typeName := by
    simp [Forest.sourceType, hn]
  have hserved : t.factories.contains n.typeName := by simp [Table.contains, hf]
  have hfirst : t.firstServed (w.world.forest.sourceChain (.node id)) = some n.typeName := by
    rw [← htype]
    exact firstServed_own (htype ▸ hf)
  obtain ⟨resolved, hresolve, -⟩ := outcome_resolveFactory_of_known (t := t) (s := .node id)
    fun key hkey => (hown _ key (htype ▸ hkey) hserved).trans hfirst.symm
  rw [hfirst, Option.bind_some, hf] at hresolve
  refine ⟨resolved, ?_⟩
  have hmake : (t.makeWithin (depth + 1) (.node id) parent).outcome w =
      (.ok [id], Workshop.withWorld { w with resolved } w.world.registry
        (t.settled w.world.forest id parent)) := by
    rw [makeWithin, outcome_bind_ok hresolve]
    rfl
  rw [transform, transformIntoNodes, outcome_bind_ok hmake]
  rfl

/-- After any history, a node whose type has an identity factory is transformed into itself, and all
nodes hold what they held. Its link to the node that holds it is taken away, though: where every held
node pointed back at its holder, this is so afterwards if and only if nothing holds the transformed
one. -/
theorem transform_identity_exact (config : TransformerConfig) (hooks : Hooks) (deeds : List Deed)
    (hdeeds : ∀ f ∈ deeds.filterMap registers, f.Discreet) (depth : Nat) :
    let state := afterAll deeds ({ config, hooks }, {})
    let forest := state.2.world.forest
    forest.node? id = some n → state.1.factories.get? n.typeName = some (.identity n.typeName) →
    forest.Linked → forest.HeldOnce →
    let done := (state.1.transform (depth + 1) (.one (.node id)) none).outcome state.2
    let after := done.2.world.forest
    done.1 = .ok (some id) ∧ (∀ p, after.children p = forest.children p) ∧
      (∀ j, after.parent? j = if j = id then none else forest.parent? j) ∧ after.HeldOnce ∧
      (after.Linked ↔ ∀ p, ¬ forest.Holds p id) := by
  intro state forest hn hf hlinked hone done after
  have hstart : Orderly ({ config, hooks }, ({} : Workshop)) :=
    ⟨fun name f h => by simp at h, fun name key h => by simp at h⟩
  have hown := (orderly_afterAll hstart hdeeds).own
  obtain ⟨resolved, hdone⟩ := outcome_transform_identity hown hn hf depth none
  have hafter : after = state.1.settled forest id none := by
    rw [show after = done.2.world.forest from rfl, show done = _ from hdone]
    rfl
  have hchildren : ∀ p, after.children p = forest.children p := fun p => by
    rw [hafter, settled, Forest.children_setParent]
    split
    · exact Forest.children_setOrigin ..
    · rfl
  have hlinks : ∀ j, after.parent? j = if j = id then none else forest.parent? j := fun j => by
    rw [hafter, settled, Forest.parent?_setParent_none]
    split
    · rfl
    · split
      · exact Forest.parent?_setOrigin ..
      · rfl
  exact ⟨congrArg Prod.fst hdone, hchildren, hlinks, hone.congr hchildren,
    Forest.linked_iff_of_unlinked hlinked hchildren hlinks⟩

section Sample

/-- A world with the family in it, and a transformer that takes its members as they are. -/
def familyDeeds : List Deed :=
  [.alter fun w => { w with forest := Forest.family }, .register (.identity "test.Family")]

theorem transform_identity_exact_family :
    let state := afterAll familyDeeds ({}, {})
    let forest := state.2.world.forest
    let done := (state.1.transform 1 (.one (.node 2)) none).outcome state.2
    let after := done.2.world.forest
    forest.Linked ∧ forest.HeldOnce ∧
      done.1 = .ok (some 2) ∧ (∀ p, after.children p = forest.children p) ∧
      (∀ j, after.parent? j = if j = 2 then none else forest.parent? j) ∧ after.HeldOnce ∧
      (after.Linked ↔ ∀ p, ¬ forest.Holds p 2) := by
  have hwhole : Forest.family.WellContained := (Forest.sound_empty.run _).toWellContained
  have htype : (Forest.family.node? 2).map Node.typeName = some "test.Family" := by decide
  obtain ⟨n, hn, hname⟩ := Option.map_eq_some_iff.mp htype
  have hdiscreet : ∀ f ∈ familyDeeds.filterMap registers, f.Discreet := by
    intro f hf
    obtain rfl : .identity "test.Family" = f := by simpa [familyDeeds, registers] using hf
    exact Factory.discreet_identity _
  refine ⟨hwhole.linked, hwhole.heldOnce, ?_⟩
  refine transform_identity_exact {} {} familyDeeds hdiscreet 0 hn ?_ hwhole.linked hwhole.heldOnce
  rw [hname]
  rfl

/-- A member of the family that is transformed into itself is still in the slot of its holder but
does not point back at it, so it can be put under another member as well. -/
theorem transform_identity_orphans_member :
    let state := afterAll familyDeeds ({}, {})
    let forest := state.2.world.forest
    let done := (state.1.transform 1 (.one (.node 2)) none).outcome state.2
    let after := done.2.world.forest
    let again := after.perform (.addChild 1 "rest" 2)
    forest.Linked ∧ forest.HeldOnce ∧
      (forest.node? 2).map Node.typeName = some "test.Family" ∧
      state.1.factories.get? "test.Family" = some (.identity "test.Family") ∧
      done.1 = .ok (some 2) ∧ ¬ after.Linked ∧
      again.Holds 0 2 ∧ again.Holds 1 2 := by
  intro state forest done after again
  have hwhole : Forest.family.WellContained := (Forest.sound_empty.run _).toWellContained
  refine ⟨hwhole.linked, hwhole.heldOnce, by decide, rfl, rfl, fun h => ?_, ?_, ?_⟩
  · have hheld : 2 ∈ after.children 0 := by decide
    have hlink : after.parent? 2 = none := by decide
    rw [h 0 2 hheld] at hlink
    cases hlink
  · show 2 ∈ again.children 0
    decide
  · show 2 ∈ again.children 1
    decide

end Sample

end Transformer

end Arbor
