import Arbor.Proofs.Transform.Drafting

/-!
Putting new nodes into the property they were made for. The nodes point at their owner before they
are stored; each of them is detached, checked and attached again, and what is left of all that is
the owner with the nodes in its slot. Nodes are refused exactly where the property cannot hold as
many as there are.
-/
namespace Arbor

theorem Portion.toList_ofList {α : Type} (as : List α) : (Portion.ofList as).toList = as := by
  cases as with
  | nil => rfl
  | cons a rest => cases rest <;> rfl

namespace Node
variable {n : Node} {i : Nat} {p : Property} {done : List (List NodeId)} {held : List NodeId}
  {c : NodeId}

/-- One more node in a collection that is being filled. -/
theorem filled_grown (hn : n.Bare) (hp : n.descriptor.properties[done.length]? = some p)
    (hm : p.multiple) :
    (n.filled (done ++ [held])).setSlot done.length
        (Forest.grown (n.filled (done ++ [held])) done.length c) =
      n.filled (done ++ [held ++ [c]]) := by
  have hlt : done.length < (n.filled done).slots.length := by
    rw [length_filled]
    exact hn.typed.lt_length hp
  have hslot : (n.filled (done ++ [held])).slot done.length =
      (n.slot done.length).filled p held := by
    rw [filled_concat hn.typed hp, slot_setSlot hlt]
  have hgrown : Forest.grown (n.filled (done ++ [held])) done.length c =
      .children (held ++ [c]) := by
    unfold Forest.grown
    rw [hslot]
    cases held with
    | cons a rest => simp [Slot.filled, hm]
    | nil =>
      have hempty := slot_nodes_of_contents hn.contents done.length
      cases hs : n.slot done.length <;> simp_all [Slot.filled, Slot.nodes]
  have hfilled : (n.slot done.length).filled p (held ++ [c]) = .children (held ++ [c]) := by
    cases held <;> simp [Slot.filled, hm]
  rw [hgrown, filled_concat hn.typed hp, filled_concat hn.typed hp, setSlot_setSlot, hfilled]

end Node

namespace Forest
variable {f g k : Forest} {id child : NodeId} {n m : Node} {i : Nat} {p : Property}

theorem revised_refl (hn : f.node? id = some n) : f.Revised f id n := ⟨rfl, hn, fun _ => rfl⟩

theorem Revised.trans (h₁ : f.Revised g id n) (h₂ : g.Revised k id m) : f.Revised k id m :=
  ⟨h₂.size.trans h₁.size, h₂.self, fun hj => (h₂.other hj).trans (h₁.other hj)⟩

section Refused
variable (hn : f.node? id = some n) (hc : f.node? child = some m) (ht : n.Typed)
  (hd : (n.descriptor.properties.map (·.name)).Nodup)
  (hp : n.descriptor.properties[i]? = some p) (hk : p.isChild = false)
include hn hc ht hd hp hk

theorem setChild_of_not_isChild :
    f.setChild id p.name child = .error (.notAChild n.qualifiedName p.name) := by
  have hplace : n.singleChild p.name = .error (.notAChild n.qualifiedName p.name) := by
    simp [Node.singleChild, Node.declared_of_getElem? ht hd hp, hk]
  simp [setChild, get, hn, hc, hplace, bind, Except.bind]

theorem addChild_of_not_isChild :
    f.addChild id p.name child = .error (.notAChild n.qualifiedName p.name) := by
  have hplace : n.childCollection p.name = .error (.notAChild n.qualifiedName p.name) := by
    simp [Node.childCollection, Node.declared_of_getElem? ht hd hp, hk]
  simp [addChild, get, hn, hc, hplace, bind, Except.bind]

end Refused

end Forest

namespace Transformer
open Forest Work
variable {w : Workshop} {owner : NodeId} {look : Node} {done : List (List NodeId)}
  {held ids : List NodeId} {p : Property}

/-- Nodes that were made for an owner. -/
def MadeFor (f : Forest) (owner : NodeId) (ids : List NodeId) : Prop :=
  ∀ c ∈ ids, ∃ n, f.node? c = some n ∧ n.parent = some owner

/-- The nodes go into a collection one after the other. -/
theorem outcome_addChildren (hl : look.Bare)
    (hp : look.descriptor.properties[done.length]? = some p) (hk : p.isChild) (hm : p.multiple)
    (hn : w.world.forest.node? owner = some (look.filled (done ++ [held])))
    (ht : (look.filled done).Typed) (hc : (look.filled done).contents = done.flatten)
    (hids : MadeFor w.world.forest owner ids) (hnew : (done.flatten ++ (held ++ ids)).Nodup) :
    ∃ g, (addChildren owner p.name ids).outcome w = (.ok (), w.withWorld w.world.registry g) ∧
      w.world.forest.Revised g owner (look.filled (done ++ [held ++ ids])) := by
  induction ids generalizing w held with
  | nil => exact ⟨w.world.forest, rfl, by simpa using revised_refl hn⟩
  | cons c rest ih =>
    obtain ⟨cn, hcn, hlink⟩ := hids c (by simp)
    have htyped : (look.filled (done ++ [held])).Typed :=
      hl.typed.filled_concat ht hp fun _ => hk
    have houtside : c ∉ (look.filled (done ++ [held])).contents := by
      rw [Node.contents_filled_concat hl.typed hl.contents hp (.inl hm), hc]
      rw [← List.append_assoc] at hnew
      exact fun hmem => (List.nodup_append.mp hnew).2.2 c hmem c (by simp) rfl
    have hplace := Node.childCollection_of_getElem? htyped hl.names hp hk hm
    obtain ⟨g, hadd, hg⟩ := addChild_of_made hn hl.parent hcn hlink houtside hplace
    rw [Node.filled_grown hl hp hm] at hg
    have hlater : MadeFor g owner rest := by
      intro d hd
      obtain ⟨dn, hdn, hdlink⟩ := hids d (by simp [hd])
      refine ⟨dn, ?_, hdlink⟩
      rw [hg.other, hdn]
      exact ne_of_made hn hl.parent hdn hdlink
    obtain ⟨k, hrest, hk'⟩ := @ih (w.withWorld w.world.registry g) (held ++ [c]) hg.self hlater
      (by simpa using hnew)
    rw [← List.append_cons] at hk'
    refine ⟨k, ?_, hg.trans hk'⟩
    rw [addChildren, outcome_bind_ok (outcome_change hadd), hrest]
    rfl

theorem multiple_of_getElem? (hl : look.Bare)
    (hp : look.descriptor.properties[done.length]? = some p)
    (hn : w.world.forest.node? owner = some (look.filled done)) :
    ((w.world.forest.node? owner).any fun n =>
      (n.descriptor.property? p.name).any (·.multiple)) = p.multiple := by
  have hproperty := Node.property?_of_getElem? (n := look) hl.names hp
  simp [hn, hproperty]

/-- Content for a collection is added node by node. -/
theorem outcome_storeBySchema_multiple {content : Portion NodeId}
    (hmultiple : ((w.world.forest.node? owner).any fun n =>
      (n.descriptor.property? p.name).any (·.multiple)) = true) :
    (storeBySchema p.name owner content).outcome w =
      (addChildren owner p.name content.toList).outcome w := by
  rw [storeBySchema, outcome_bind_ok outcome_forest]
  simp only [hmultiple, if_true]
  cases content <;> rfl

/-- Content for one child is put there if it is one node. -/
theorem outcome_storeBySchema_single (content : Portion NodeId)
    (hsingle : ((w.world.forest.node? owner).any fun n =>
      (n.descriptor.property? p.name).any (·.multiple)) = false) :
    (content.toList = [] → (storeBySchema p.name owner content).outcome w = (.ok (), w)) ∧
    (∀ c, content.toList = [c] → (storeBySchema p.name owner content).outcome w =
      (change (·.setChild owner p.name c)).outcome w) ∧
    (1 < content.toList.length → ∃ e, (storeBySchema p.name owner content).outcome w =
      (.error e, w)) := by
  rw [storeBySchema, outcome_bind_ok outcome_forest]
  simp only [hsingle]
  cases content with
  | absent => simp [Portion.toList]
  | one a => simp [Portion.toList]
  | many as =>
    cases as with
    | nil => simp [Portion.toList]
    | cons a rest =>
      cases rest with
      | nil => simp [Portion.toList]
      | cons b rest =>
        exact ⟨by simp [Portion.toList], by simp [Portion.toList], fun _ => ⟨_, rfl⟩⟩

/-- Only child properties hold nodes, and only collections more than one. -/
theorem refuses_eq_none_iff {count : Nat} :
    p.refuses count = none ↔ (count ≠ 0 → p.isChild) ∧ (p.multiple ∨ count ≤ 1) := by
  unfold Property.refuses
  cases p.isChild <;> cases p.multiple <;> by_cases h : count = 0 <;> simp [h]

/-- Nodes for a child property that can hold them. -/
theorem outcome_storeBySchema_ok (hl : look.Bare)
    (hp : look.descriptor.properties[done.length]? = some p)
    (hn : w.world.forest.node? owner = some (look.filled done)) (ht : (look.filled done).Typed)
    (hc : (look.filled done).contents = done.flatten)
    (hids : MadeFor w.world.forest owner ids) (hnew : (done.flatten ++ ids).Nodup)
    {content : Portion NodeId} (hcontent : content.toList = ids)
    (hfits : p.refuses ids.length = none) :
    ∃ g, (storeBySchema p.name owner content).outcome w =
        (.ok (), w.withWorld w.world.registry g) ∧
      w.world.forest.Revised g owner (look.filled (done ++ [ids])) := by
  have hmultiple := multiple_of_getElem? hl hp hn
  obtain ⟨hchild, hroom⟩ := refuses_eq_none_iff.mp hfits
  have hunfilled : w.world.forest.node? owner = some (look.filled (done ++ [[]])) := by
    rw [Node.filled_concat_nil hl.typed hp, hn]
  cases hm : p.multiple with
  | true =>
    rw [hm] at hmultiple
    rw [outcome_storeBySchema_multiple hmultiple, hcontent]
    cases ids with
    | nil => exact ⟨w.world.forest, rfl, revised_refl hunfilled⟩
    | cons c rest =>
      exact outcome_addChildren hl hp (hchild (by simp)) hm hunfilled ht hc hids hnew
  | false =>
    rw [hm] at hmultiple
    obtain ⟨hnone, hone, -⟩ := outcome_storeBySchema_single content hmultiple
    cases ids with
    | nil => exact ⟨w.world.forest, hnone hcontent, revised_refl hunfilled⟩
    | cons c rest =>
      obtain rfl : rest = [] := by simpa [hm] using hroom
      obtain ⟨cn, hcn, hlink⟩ := hids c (by simp)
      have houtside : c ∉ (look.filled done).contents := by
        rw [hc]
        exact fun hmem => (List.nodup_append.mp hnew).2.2 c hmem c (by simp) rfl
      have hplace := Node.singleChild_of_getElem? ht hl.names hp (hchild (by simp)) hm
      have hempty : ((look.filled done).slot done.length).nodes = [] := by
        rw [Node.slot_filled (Nat.le_refl _), Node.slot_nodes_of_contents hl.contents]
      obtain ⟨g, hset, hg⟩ := setChild_of_made hn hl.parent hcn hlink houtside hplace hempty
      refine ⟨g, by rw [hone c hcontent, outcome_change hset], ?_⟩
      rw [Node.filled_concat hl.typed hp]
      simpa [Slot.filled, hm] using hg

/-- Nodes for a property that cannot hold them. -/
theorem outcome_storeBySchema_error (hl : look.Bare)
    (hp : look.descriptor.properties[done.length]? = some p)
    (hn : w.world.forest.node? owner = some (look.filled done)) (ht : (look.filled done).Typed)
    (hids : MadeFor w.world.forest owner ids)
    {content : Portion NodeId} (hcontent : content.toList = ids) {o : Obstacle}
    (hrefuses : p.refuses ids.length = some o) :
    ∃ e w', (storeBySchema p.name owner content).outcome w = (.error e, w') := by
  have hmultiple := multiple_of_getElem? hl hp hn
  cases ids with
  | nil => simp [Property.refuses] at hrefuses
  | cons c rest =>
    obtain ⟨cn, hcn, -⟩ := hids c (by simp)
    have hnot : ¬ (((c :: rest).length ≠ 0 → p.isChild) ∧
        (p.multiple ∨ (c :: rest).length ≤ 1)) := by
      rw [← refuses_eq_none_iff, hrefuses]
      simp
    cases hm : p.multiple with
    | true =>
      rw [hm] at hmultiple
      have hk : p.isChild = false := by simpa [hm] using hnot
      have hadd := addChild_of_not_isChild hn hcn ht hl.names hp hk
      rw [outcome_storeBySchema_multiple hmultiple, hcontent, addChildren,
        outcome_bind_error (outcome_change_error hadd)]
      exact ⟨_, _, rfl⟩
    | false =>
      rw [hm] at hmultiple
      obtain ⟨-, hone, hmore⟩ := outcome_storeBySchema_single content hmultiple
      cases rest with
      | cons d rest =>
        obtain ⟨e, he⟩ := hmore (by rw [hcontent]; simp)
        exact ⟨e, w, he⟩
      | nil =>
        have hk : p.isChild = false := by simpa [hm] using hnot
        have hset := setChild_of_not_isChild hn hcn ht hl.names hp hk
        exact ⟨_, w, by rw [hone c hcontent, outcome_change_error hset]⟩

end Transformer

end Arbor
