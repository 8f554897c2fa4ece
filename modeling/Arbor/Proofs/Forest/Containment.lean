import Arbor.Proofs.Forest.Cells
import Mathlib.Data.List.Perm.Subperm
import Mathlib.Logic.Relation

/-!
Containment in a forest is stored twice, as a link from a node to its container and as the content
of the container's slots. `WellContained` says that both sides agree, that links never lead back,
and that slots hold what their properties declare. Attaching looks for a loop along the links only;
with finitely many cells a lineage that is long enough sees every container.
-/
namespace Arbor
open Relation

/-- What a slot of the property may hold: values for attributes, one node or a collection for
children, references for references. -/
def Property.Admits (p : Property) : Slot → Prop
  | .absent => True
  | .value _ => p.kind = .attr
  | .child _ => p.kind = .child ∧ p.multiple = false
  | .children _ => p.kind = .child ∧ p.multiple = true
  | .reference _ => p.kind = .reference

namespace Node
variable {n : Node} {i : Nat} {p : Property} {s : Slot}

/-- One slot for each property, each with content of the declared sort. -/
def Typed (n : Node) : Prop := List.Forall₂ Property.Admits n.descriptor.properties n.slots

theorem typed_blank (d : Descriptor) : (blank d).Typed := by
  unfold Typed blank
  induction d.properties with
  | nil => exact .nil
  | cons p rest ih => exact .cons trivial ih

theorem Typed.length_slots (h : n.Typed) : n.slots.length = n.descriptor.properties.length :=
  (List.Forall₂.length_eq h).symm

theorem Typed.slot (h : n.Typed) (hp : n.descriptor.properties[i]? = some p) :
    p.Admits (n.slot i) := by
  unfold Typed at h
  unfold Node.slot
  generalize n.descriptor.properties = ps at h hp
  generalize n.slots = ss at h
  induction h generalizing i with
  | nil => simp at hp
  | cons hq _ ih =>
    cases i with
    | zero =>
      obtain rfl : _ = p := by simpa using hp
      simpa using hq
    | succ i => simpa using ih (by simpa using hp)

theorem Typed.setSlot (h : n.Typed) (hp : n.descriptor.properties[i]? = some p)
    (hs : p.Admits s) : (n.setSlot i s).Typed := by
  unfold Typed at h ⊢
  simp only [Node.setSlot]
  generalize n.descriptor.properties = ps at h hp ⊢
  generalize n.slots = ss at h ⊢
  induction h generalizing i with
  | nil => simp at hp
  | cons hq hrest ih =>
    cases i with
    | zero =>
      obtain rfl : _ = p := by simpa using hp
      exact .cons hs hrest
    | succ i => exact .cons hq (ih (by simpa using hp))

theorem Typed.setParent (h : n.Typed) (p : Option NodeId) : (n.setParent p).Typed := by
  unfold Typed at h ⊢
  exact h

theorem Typed.release (h : n.Typed) (id : NodeId) : (n.release id).Typed := by
  unfold Typed at h ⊢
  refine List.forall₂_map_right_iff.mpr (h.imp fun p s hs => ?_)
  cases s with
  | child c =>
    simp only [Slot.without]
    split
    · trivial
    · exact hs
  | _ => exact hs

/-- Where slots hold what is declared, the children are everything in the slots. -/
theorem Typed.children_eq (h : n.Typed) : n.children = n.contents := by
  unfold Typed at h
  unfold children properties contents
  generalize n.descriptor.properties = ps at h ⊢
  generalize n.slots = ss at h ⊢
  induction h with
  | nil => rfl
  | @cons q s _ _ hq _ ih =>
    simp only [List.zip_cons_cons, List.flatMap_cons, Property.isChild]
    congr 1
    cases s <;> simp_all [Property.Admits, Slot.nodes]

/-- The property at `i` is for children, for one or for any number. -/
def DeclaresChild (n : Node) (i : Nat) (multiple : Bool) : Prop :=
  ∃ p, n.descriptor.properties[i]? = some p ∧ p.kind = .child ∧ p.multiple = multiple

theorem Typed.lt_length (h : n.Typed) (hp : n.descriptor.properties[i]? = some p) :
    i < n.slots.length := by
  rw [h.length_slots]
  exact (List.getElem?_eq_some_iff.mp hp).1

theorem declared_eq_ok {name : String} (h : n.declared name = .ok (i, p)) :
    n.descriptor.properties[i]? = some p := by
  unfold declared at h
  split at h
  · cases h
  · split at h
    · next hp =>
      split at h
      · cases h
        exact hp
      · cases h
    · cases h

theorem singleChild_eq_ok {name : String} (h : n.singleChild name = .ok i) :
    n.DeclaresChild i false := by
  unfold singleChild at h
  split at h
  · cases h
  · next hd =>
    split_ifs at h with hk hm
    cases h
    exact ⟨_, declared_eq_ok hd, by simpa [Property.isChild] using hk, by simpa using hm⟩

theorem childCollection_eq_ok {name : String} (h : n.childCollection name = .ok i) :
    n.DeclaresChild i true := by
  unfold childCollection at h
  split at h
  · cases h
  · next hd =>
    split_ifs at h with hk hm
    cases h
    exact ⟨_, declared_eq_ok hd, by simpa [Property.isChild] using hk, by simpa using hm⟩

theorem declaredOf_eq_ok {kind : PropertyKind} {name : String}
    (h : n.declaredOf kind name = .ok i) :
    ∃ p, n.descriptor.properties[i]? = some p ∧ p.kind = kind := by
  unfold declaredOf at h
  split at h
  · cases h
  · next hd =>
    split_ifs at h with hk
    cases h
    exact ⟨_, declared_eq_ok hd, hk⟩

/-- A slot for one child holds the child or nothing. -/
theorem Typed.count_single (h : n.Typed) (hd : n.DeclaresChild i false) (x : NodeId) :
    (n.slot i).nodes.count x = if n.slot i = .child x then 1 else 0 := by
  obtain ⟨p, hp, hk, hm⟩ := hd
  have hs := h.slot hp
  cases hsl : n.slot i <;> simp_all [Property.Admits, Slot.nodes, List.count_singleton]

/-- A slot for other than children holds no node. -/
theorem Typed.nodes_eq_nil (h : n.Typed) (hp : n.descriptor.properties[i]? = some p)
    (hk : p.kind ≠ .child) : (n.slot i).nodes = [] := by
  have hs := h.slot hp
  cases hsl : n.slot i <;> simp_all [Property.Admits, Slot.nodes]

end Node

namespace Forest
variable {f g : Forest} {a c p q id owner child : NodeId}

/-- The node `c` points back at the node `p`. -/
def Below (f : Forest) (c p : NodeId) : Prop := f.parent? c = some p

/-- Every node is typed. -/
def Typed (f : Forest) : Prop := ∀ id n, f.node? id = some n → n.Typed

/-- Both sides of containment agree, and slots hold what is declared. -/
structure WellContained (f : Forest) : Prop where
  /-- What a node holds points back at it. -/
  parent_of_held : ∀ {p c}, c ∈ f.contents p → f.parent? c = some p
  /-- A node is held once by the node that it points back at, all slots counted. -/
  held_once : ∀ {p c}, f.parent? c = some p → (f.contents p).count c = 1
  /-- Following links never comes back. -/
  acyclic : ∀ id, ¬ TransGen f.Below id id
  typed : f.Typed

/-- How often a node is held is decided by its link. -/
theorem WellContained.count_contents (h : f.WellContained) (p c : NodeId) :
    (f.contents p).count c = if f.parent? c = some p then 1 else 0 := by
  split
  · next hc => exact h.held_once hc
  · next hc => exact List.count_eq_zero.mpr fun hm => hc (h.parent_of_held hm)

theorem wellContained_of_count
    (hc : ∀ p c, (f.contents p).count c = if f.parent? c = some p then 1 else 0)
    (ha : ∀ id, ¬ TransGen f.Below id id) (ht : f.Typed) : f.WellContained where
  parent_of_held {p c} hm := by
    by_contra hne
    have := List.count_pos_iff.mpr hm
    rw [hc, if_neg hne] at this
    omega
  held_once hp := by rw [hc, if_pos hp]
  acyclic := ha
  typed := ht

/-- Fewer links cannot close a loop. -/
theorem acyclic_mono (hs : ∀ c p, g.Below c p → f.Below c p) (ha : ∀ id, ¬ TransGen f.Below id id)
    (id : NodeId) : ¬ TransGen g.Below id id :=
  fun h => ha id (TransGen.mono hs _ _ h)

/-- A new link from `child` to `owner` closes no loop unless `child` contains `owner` already. A
path over the new link leads to `child` and goes on from `owner`. -/
theorem acyclic_attach (hs : ∀ c p, g.Below c p → f.Below c p ∨ (c = child ∧ p = owner))
    (ha : ∀ id, ¬ TransGen f.Below id id) (hn : ¬ ReflTransGen f.Below owner child)
    (id : NodeId) : ¬ TransGen g.Below id id := by
  have path : ∀ {x y}, TransGen g.Below x y → TransGen f.Below x y ∨
      (ReflTransGen f.Below x child ∧ ReflTransGen f.Below owner y) := by
    intro x y hxy
    induction hxy with
    | single h =>
      rcases hs _ _ h with h | ⟨rfl, rfl⟩
      · exact .inl (.single h)
      · exact .inr ⟨.refl, .refl⟩
    | tail _ h ih =>
      rcases hs _ _ h with h | ⟨rfl, rfl⟩
      · rcases ih with ih | ⟨h₁, h₂⟩
        · exact .inl (ih.tail h)
        · exact .inr ⟨h₁, h₂.tail h⟩
      · rcases ih with ih | ⟨h₁, _⟩
        · exact .inr ⟨ih.to_reflTransGen, .refl⟩
        · exact .inr ⟨h₁, .refl⟩
  intro h
  rcases path h with h | ⟨h₁, h₂⟩
  · exact ha id h
  · exact hn (h₂.trans h₁)

theorem mem_lineage_reach {fuel : Nat} (h : a ∈ f.lineage fuel id) :
    ReflTransGen f.Below id a := by
  induction fuel generalizing id with
  | zero => simp [lineage] at h
  | succ fuel ih =>
    rcases List.mem_cons.mp h with rfl | h
    · exact .refl
    · cases hp : f.parent? id with
      | none => simp [hp] at h
      | some p => exact .head hp (ih (by simpa [hp] using h))

theorem nodup_lineage (ha : ∀ id, ¬ TransGen f.Below id id) (fuel : Nat) (id : NodeId) :
    (f.lineage fuel id).Nodup := by
  induction fuel generalizing id with
  | zero => simp [lineage]
  | succ fuel ih =>
    unfold lineage
    cases hp : f.parent? id with
    | none => simp
    | some p =>
      refine List.nodup_cons.mpr ⟨fun hm => ha id ?_, ih p⟩
      exact TransGen.head' hp (mem_lineage_reach hm)

/-- A lineage that misses a container of `id` was cut short by its fuel. -/
theorem length_lineage_of_not_mem {fuel : Nat} (hr : ReflTransGen f.Below id a)
    (hm : a ∉ f.lineage fuel id) : (f.lineage fuel id).length = fuel := by
  induction fuel generalizing id with
  | zero => rfl
  | succ fuel ih =>
    rcases hr.cases_head with rfl | ⟨p, hp, hr⟩
    · simp [lineage] at hm
    · have hp : f.parent? id = some p := hp
      simp only [lineage, hp, List.mem_cons, not_or] at hm ⊢
      simp [ih hr hm.2]

theorem contains_of_reach (hr : ReflTransGen f.Below id a) (hi : f.contains id) :
    f.contains a := by
  induction hr with
  | refl => exact hi
  | tail _ h _ => exact (parent?_eq_some.mp h).2

/-- There are no more different nodes than cells. -/
theorem length_le_size {ids : List NodeId} (hd : ids.Nodup) (hl : ∀ x ∈ ids, x < f.size) :
    ids.length ≤ f.size := by
  have hsub : ids ⊆ List.range f.size := fun x hx => List.mem_range.mpr (hl x hx)
  simpa only [List.length_range] using (List.subperm_of_subset hd hsub).length_le

/-- A lineage is no longer than there are cells. -/
theorem length_lineage_le (ha : ∀ id, ¬ TransGen f.Below id id) (hi : f.contains id) (fuel : Nat) :
    (f.lineage fuel id).length ≤ f.size :=
  length_le_size (nodup_lineage ha fuel id) fun _ hx =>
    lt_size_of_contains (contains_of_reach (mem_lineage_reach hx) hi)

/-- With one link more than there are cells, a lineage lists all containers. -/
theorem mem_lineage_iff (ha : ∀ id, ¬ TransGen f.Below id id) (hi : f.contains id) :
    a ∈ f.lineage (f.size + 1) id ↔ ReflTransGen f.Below id a := by
  refine ⟨mem_lineage_reach, fun hr => ?_⟩
  by_contra hm
  have hlen := length_lineage_of_not_mem hr hm
  have hle := length_lineage_le ha hi (f.size + 1)
  omega

end Forest

end Arbor
