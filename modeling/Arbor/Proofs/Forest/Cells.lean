import Arbor.Forest.Collect
import Arbor.Forest.Edit
import Mathlib.Data.List.Forall2
import Mathlib.Logic.Function.Iterate

/-!
What the elementary changes of a forest do to the nodes that it gives back. Containment is read
through two views: the link of a node to its container, and the list of all nodes in the slots of
a node. The count of a node in that list changes by what is written and by what is overwritten.
-/
namespace Arbor

namespace Slot
variable {s : Slot} {id : NodeId}

theorem nodes_without (s : Slot) (id : NodeId) :
    (s.without id).nodes = s.nodes.filter (· ≠ id) := by
  cases s with
  | child c => by_cases hc : c = id <;> simp [without, nodes, hc]
  | _ => simp [without, nodes]

theorem without_of_not_mem (h : id ∉ s.nodes) : s.without id = s := by
  cases s with
  | child c => simp_all [without, nodes, eq_comm]
  | children cs =>
    have hkeep : ∀ a ∈ cs, a ≠ id := fun a ha => ne_of_mem_of_not_mem ha h
    simpa [without] using hkeep
  | _ => rfl

end Slot

namespace Node

/-- All nodes in the slots of a node, whatever the properties are. -/
def contents (n : Node) : List NodeId := n.slots.flatMap Slot.nodes

@[simp] theorem contents_blank (d : Descriptor) : (blank d).contents = [] := by
  simp [contents, blank, Slot.nodes]

@[simp] theorem contents_setParent (n : Node) (p : Option NodeId) :
    (n.setParent p).contents = n.contents := rfl

theorem mem_contents_of_slot {n : Node} {i : Nat} {c : NodeId} (h : c ∈ (n.slot i).nodes) :
    c ∈ n.contents := by
  unfold slot at h
  cases hs : n.slots[i]? with
  | none => simp [hs, Slot.nodes] at h
  | some s => exact List.mem_flatMap.mpr ⟨s, List.mem_of_getElem? hs, by simpa [hs] using h⟩

theorem count_nodes_without (x id : NodeId) (s : Slot) :
    (s.without id).nodes.count x = if x = id then 0 else s.nodes.count x := by
  rw [Slot.nodes_without]
  by_cases hx : x = id
  · simp [hx, List.count_eq_zero]
  · rw [if_neg hx, List.count_filter (by simpa using hx)]

/-- Releasing a node takes out every occurrence of it and nothing else. -/
theorem count_contents_release (n : Node) (id x : NodeId) :
    (n.release id).contents.count x = if x = id then 0 else n.contents.count x := by
  simp only [contents, release]
  induction n.slots with
  | nil => simp
  | cons s rest ih =>
    simp only [List.map_cons, List.flatMap_cons, List.count_append, ih, count_nodes_without]
    split <;> rfl

/-- Overwriting one entry exchanges what it contributes to the whole. -/
theorem count_flatMap_set {α : Type} (part : α → List NodeId) (xs : List α) (i : Nat) (a : α)
    (x : NodeId) (hi : i < xs.length) :
    ((xs.set i a).flatMap part).count x + (part xs[i]).count x =
      (xs.flatMap part).count x + (part a).count x := by
  induction xs generalizing i with
  | nil => simp at hi
  | cons b rest ih =>
    cases i with
    | zero =>
      simp only [List.set_cons_zero, List.flatMap_cons, List.count_append, List.getElem_cons_zero]
      omega
    | succ i =>
      have := ih i (by simpa using hi)
      simp only [List.set_cons_succ, List.flatMap_cons, List.count_append, List.getElem_cons_succ]
      omega

/-- Writing a slot exchanges what it held for what is written. -/
theorem count_contents_setSlot (n : Node) (i : Nat) (s : Slot) (x : NodeId)
    (hi : i < n.slots.length) :
    (n.setSlot i s).contents.count x + (n.slot i).nodes.count x =
      n.contents.count x + s.nodes.count x := by
  have := count_flatMap_set Slot.nodes n.slots i s x hi
  simpa [contents, setSlot, slot, hi] using this

end Node

namespace Forest
variable {f : Forest} {id j : NodeId}

/-- All nodes in the slots of the node `id`. -/
def contents (f : Forest) (id : NodeId) : List NodeId := ((f.node? id).map Node.contents).getD []

theorem contents_of_node? {n : Node} (h : f.node? id = some n) : f.contents id = n.contents := by
  simp [contents, h]

theorem exists_node?_of_mem_contents {c : NodeId} (h : c ∈ f.contents id) :
    ∃ n, f.node? id = some n ∧ c ∈ n.contents := by
  unfold contents at h
  cases hn : f.node? id with
  | none => simp [hn] at h
  | some n => exact ⟨n, rfl, by simpa [hn] using h⟩

theorem lt_size_of_node? {n : Node} (h : f.node? id = some n) : id < f.size := by
  by_contra hlt
  have : f.cells[id]? = none := Array.getElem?_eq_none (by simpa [size] using hlt)
  simp [node?, this] at h

theorem lt_size_of_contains (h : f.contains id) : id < f.size := by
  obtain ⟨n, hn⟩ := Option.isSome_iff_exists.mp h
  exact lt_size_of_node? hn

@[simp] theorem node?_empty : ({} : Forest).node? id = none := by simp [node?]

@[simp] theorem size_empty : ({} : Forest).size = 0 := rfl

theorem node?_update (f : Forest) (id j : NodeId) (change : Node → Node) :
    (f.update id change).node? j = if j = id then (f.node? id).map change else f.node? j := by
  unfold update
  cases hn : f.node? id with
  | none =>
    by_cases hj : j = id
    · simp [hj, hn]
    · simp [hj]
  | some n =>
    have hlt : id < f.cells.size := lt_size_of_node? hn
    by_cases hj : j = id
    · simp [node?, hj, hlt]
    · simp [node?, hj, Array.getElem?_setIfInBounds_ne (Ne.symm hj)]

theorem update_eq_self {change : Node → Node} {n : Node} (hn : f.node? id = some n)
    (h : change n = n) : f.update id change = f := by
  have hcell : f.cells[id]? = some (some n) := by
    unfold node? at hn
    cases hc : f.cells[id]? with
    | none => simp [hc] at hn
    | some cell => simpa [hc] using hn
  obtain ⟨hlt, hget⟩ := Array.getElem?_eq_some_iff.mp hcell
  rw [update, hn]
  simp only [h, ← hget, Array.setIfInBounds_def, dif_pos hlt, Array.set_getElem_self]

/-- A cell is changed as often as it is named. -/
theorem node?_foldl_update (change : Node → Node) (ids : List NodeId) (f : Forest) (j : NodeId) :
    (ids.foldl (fun f id => f.update id change) f).node? j =
      (f.node? j).map change^[ids.count j] := by
  induction ids generalizing f with
  | nil => simp
  | cons id ids ih =>
    rw [List.foldl_cons, ih, node?_update]
    by_cases hj : j = id
    · subst hj
      rw [if_pos rfl, Option.map_map, List.count_cons_self, Function.iterate_succ]
    · rw [if_neg hj, List.count_cons_of_ne (Ne.symm hj)]

@[simp] theorem size_update (f : Forest) (id : NodeId) (change : Node → Node) :
    (f.update id change).size = f.size := by
  unfold update
  split <;> simp [size]

@[simp] theorem contains_update (f : Forest) (id j : NodeId) (change : Node → Node) :
    (f.update id change).contains j = f.contains j := by
  unfold contains
  rw [node?_update]
  split
  · next hj => simp [hj]
  · rfl

theorem node?_alloc (f : Forest) (n : Node) (j : NodeId) :
    (f.alloc n).2.node? j = if j = f.size then some n else f.node? j := by
  by_cases hj : j = f.size
  · simp [alloc, node?, hj, size]
  · simp only [alloc, node?, hj, if_false, Array.getElem?_push]
    rw [if_neg (by simpa [size] using hj)]

@[simp] theorem size_alloc (f : Forest) (n : Node) : (f.alloc n).2.size = f.size + 1 := by
  simp [alloc, size]

theorem node?_erase (f : Forest) (id j : NodeId) :
    (f.erase id).node? j = if j = id then none else f.node? j := by
  by_cases hj : j = id
  · subst hj
    by_cases hlt : j < f.cells.size
    · simp [erase, node?, hlt]
    · simp [erase, node?, hlt]
  · simp [erase, node?, hj, Array.getElem?_setIfInBounds_ne (Ne.symm hj)]

@[simp] theorem size_erase (f : Forest) (id : NodeId) : (f.erase id).size = f.size := by
  simp [erase, size]

theorem contents_update (f : Forest) (id j : NodeId) (change : Node → Node) :
    (f.update id change).contents j =
      if j = id then ((f.node? id).map fun n => (change n).contents).getD [] else f.contents j := by
  unfold contents
  rw [node?_update]
  split
  · simp [Option.map_map, Function.comp_def]
  · rfl

/-- A change that leaves the slots alone leaves the contents alone. -/
theorem contents_update_of_slots {change : Node → Node} (h : ∀ n, (change n).slots = n.slots) :
    (f.update id change).contents j = f.contents j := by
  rw [contents_update]
  split
  · next hj =>
    subst hj
    cases hn : f.node? j <;> simp [contents, Node.contents, h, hn]
  · rfl

/-- A change that leaves the children of a node alone leaves all children alone. -/
theorem children_update_of_children {change : Node → Node}
    (h : ∀ n, (change n).children = n.children) :
    (f.update id change).children j = f.children j := by
  unfold children
  rw [node?_update]
  split
  · next hj =>
    subst hj
    simp [Option.map_map, Function.comp_def, h]
  · rfl

theorem parent?_eq_some {c p : NodeId} :
    f.parent? c = some p ↔ (∃ n, f.node? c = some n ∧ n.parent = some p) ∧ f.contains p := by
  simp [parent?, Option.filter_eq_some_iff, Option.bind_eq_some_iff]

/-- A change that leaves the link alone leaves all links alone. -/
theorem parent?_update_of_parent {change : Node → Node} (h : ∀ n, (change n).parent = n.parent) :
    (f.update id change).parent? j = f.parent? j := by
  unfold parent?
  rw [node?_update]
  split
  · next hj =>
    subst hj
    cases f.node? j <;> simp [h]
  · simp

@[simp] theorem contents_setParent (p : Option NodeId) :
    (f.setParent id p).contents j = f.contents j :=
  contents_update_of_slots fun _ => rfl

@[simp] theorem contains_setParent (p : Option NodeId) :
    (f.setParent id p).contains j = f.contains j :=
  contains_update f id j _

theorem parent?_setParent_of_ne (h : j ≠ id) (p : Option NodeId) :
    (f.setParent id p).parent? j = f.parent? j := by
  unfold parent? setParent
  simp only [contains_update]
  rw [node?_update, if_neg h]

/-- A link that is taken away is gone, also where there is no node. -/
theorem parent?_setParent_none (f : Forest) (id j : NodeId) :
    (f.setParent id none).parent? j = if j = id then none else f.parent? j := by
  split
  · next hj =>
    subst hj
    unfold parent? setParent
    rw [node?_update, if_pos rfl]
    cases f.node? j <;> simp [Node.setParent]
  · next hj => exact parent?_setParent_of_ne hj none

theorem parent?_setParent_some {p : NodeId} (hi : f.contains id) (hp : f.contains p)
    (j : NodeId) :
    (f.setParent id (some p)).parent? j = if j = id then some p else f.parent? j := by
  split
  · next hj =>
    subst hj
    obtain ⟨n, hn⟩ := Option.isSome_iff_exists.mp hi
    refine parent?_eq_some.mpr ⟨⟨n.setParent (some p), ?_, rfl⟩, by simpa using hp⟩
    simp [setParent, node?_update, hn]
  · next hj => exact parent?_setParent_of_ne hj _

/-- An origin is set or, where the node would be its own, passed over. -/
theorem setOrigin_cases (f : Forest) (id : NodeId) (origin : Option Origin) :
    f.setOrigin id origin = f ∨ f.setOrigin id origin = f.update id ({ · with origin }) := by
  unfold setOrigin
  split
  · split
    · exact .inl rfl
    · exact .inr rfl
  · exact .inr rfl

end Forest

end Arbor
