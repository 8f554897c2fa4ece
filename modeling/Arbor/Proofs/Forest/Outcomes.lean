import Arbor.Proofs.Forest.Adoption
import Arbor.Proofs.Forest.Runs

/-!
What an edit of containment does to a forest as a whole. A forest is read slot by slot and link by
link here, so that an outcome says of every slot and of every link what becomes of it. A child that
is attached is detached first: this takes it out of the one slot that held it, which may be the slot
that is written next. No edit of containment drops a node; what nothing keeps any more goes later.
-/
namespace Arbor
open Relation

namespace Slot
variable {s : Slot} {id q : NodeId}

/-- The node in a slot for one. -/
def single? : Slot → Option NodeId
  | .child c => some c
  | _ => none

theorem not_mem_without : id ∉ (s.without id).nodes := by
  simp [nodes_without]

theorem without_eq_child : s.without id = .child q ↔ s = .child q ∧ q ≠ id := by
  cases s with
  | child c =>
    simp only [without]
    split <;> grind
  | _ => simp [without]

end Slot

namespace Node
variable {n : Node} {i k : Nat} {name : String} {p : Property}

/-- The name is that of the property at `i`, which is for children, for one or for any number. -/
def NamesChild (n : Node) (name : String) (i : Nat) (multiple : Bool) : Prop :=
  n.descriptor.propertyIndex? name = some i ∧ n.DeclaresChild i multiple

theorem Typed.declared_eq_ok_iff (ht : n.Typed) :
    n.declared name = .ok (i, p) ↔
      n.descriptor.propertyIndex? name = some i ∧ n.descriptor.properties[i]? = some p := by
  unfold declared
  cases hi : n.descriptor.propertyIndex? name with
  | none => simp
  | some j =>
    cases hp : n.descriptor.properties[j]? with
    | none => grind
    | some q =>
      have hlt := ht.lt_length hp
      grind

theorem Typed.singleChild_eq_ok_iff (ht : n.Typed) :
    n.singleChild name = .ok i ↔ n.NamesChild name i false := by
  constructor
  · intro h
    refine ⟨?_, singleChild_eq_ok h⟩
    unfold singleChild at h
    split at h
    · cases h
    · next hd =>
      split_ifs at h
      cases h
      exact (ht.declared_eq_ok_iff.mp hd).1
  · rintro ⟨hi, p, hp, hk, hm⟩
    simp [singleChild, ht.declared_eq_ok_iff.mpr ⟨hi, hp⟩, Property.isChild, hk, hm]

theorem Typed.childCollection_eq_ok_iff (ht : n.Typed) :
    n.childCollection name = .ok i ↔ n.NamesChild name i true := by
  constructor
  · intro h
    refine ⟨?_, childCollection_eq_ok h⟩
    unfold childCollection at h
    split at h
    · cases h
    · next hd =>
      split_ifs at h
      cases h
      exact (ht.declared_eq_ok_iff.mp hd).1
  · rintro ⟨hi, p, hp, hk, hm⟩
    simp [childCollection, ht.declared_eq_ok_iff.mpr ⟨hi, hp⟩, Property.isChild, hk, hm]

/-- A node apart from its link and from what is in its slots. -/
def shell (n : Node) : Node :=
  { n with parent := none, slots := List.replicate n.slots.length .absent }

@[simp] theorem shell_setParent (n : Node) (parent : Option NodeId) :
    (n.setParent parent).shell = n.shell := rfl

@[simp] theorem shell_setSlot (n : Node) (i : Nat) (s : Slot) : (n.setSlot i s).shell = n.shell := by
  simp [shell, setSlot]

@[simp] theorem shell_release (n : Node) (id : NodeId) : (n.release id).shell = n.shell := by
  simp [shell, release]

theorem slot_release (n : Node) (id : NodeId) (i : Nat) :
    (n.release id).slot i = (n.slot i).without id := by
  unfold release slot
  rw [List.getElem?_map]
  cases n.slots[i]? <;> rfl

end Node

namespace Forest
variable {f g : Forest} {c p q id j owner child : NodeId} {n m : Node} {i k : Nat} {name : String}

/-- What a slot of the node `id` holds; nothing where there is no such slot. -/
def slotAt (f : Forest) (id : NodeId) (i : Nat) : Slot :=
  ((f.node? id).map (·.slot i)).getD .absent

theorem slotAt_of_node? (hn : f.node? id = some n) (i : Nat) : f.slotAt id i = n.slot i := by
  simp [slotAt, hn]

theorem slotAt_update (f : Forest) (id j : NodeId) (change : Node → Node) (i : Nat) :
    (f.update id change).slotAt j i =
      if j = id then ((f.node? id).map fun n => (change n).slot i).getD .absent
      else f.slotAt j i := by
  unfold slotAt
  rw [node?_update]
  split
  · simp [Option.map_map, Function.comp_def]
  · rfl

@[simp] theorem slotAt_setParent (f : Forest) (id : NodeId) (parent : Option NodeId) (j : NodeId)
    (i : Nat) : (f.setParent id parent).slotAt j i = f.slotAt j i := by
  rw [setParent, slotAt_update]
  split
  · next hj => subst hj; rfl
  · rfl

theorem slotAt_update_setSlot (hn : f.node? owner = some n) (hi : i < n.slots.length) {s : Slot}
    {change : Node → Node} (hchange : change n = n.setSlot i s) (j : NodeId) (k : Nat) :
    (f.update owner change).slotAt j k = if j = owner ∧ k = i then s else f.slotAt j k := by
  rw [slotAt_update, hn, Option.map_some, Option.getD_some, hchange]
  by_cases hj : j = owner
  · rw [if_pos hj]
    by_cases hk : k = i
    · rw [if_pos ⟨hj, hk⟩, hk, Node.slot_setSlot hi]
    · rw [if_neg fun h => hk h.2, Node.slot_setSlot_of_ne (Ne.symm hk), hj, slotAt_of_node? hn]
  · rw [if_neg hj, if_neg fun h => hj h.1]

/-- Between the two forests nothing differs but links and what is in slots. -/
def SameShells (f g : Forest) : Prop :=
  ∀ j, (g.node? j).map Node.shell = (f.node? j).map Node.shell

theorem SameShells.refl (f : Forest) : f.SameShells f := fun _ => rfl

theorem SameShells.update (h : f.SameShells g) {change : Node → Node}
    (hchange : ∀ n, (change n).shell = n.shell) : f.SameShells (g.update id change) := by
  intro j
  rw [node?_update, ← h j]
  split
  · next hj =>
    subst hj
    simp [Option.map_map, Function.comp_def, hchange]
  · rfl

theorem SameShells.setParent (h : f.SameShells g) (id : NodeId) (parent : Option NodeId) :
    f.SameShells (g.setParent id parent) :=
  h.update fun n => n.shell_setParent parent

theorem SameShells.detach (h : f.SameShells g) (id : NodeId) : f.SameShells (g.detach id).2 := by
  unfold Forest.detach
  split
  · exact h
  · exact (h.update fun n => n.shell_release id).setParent id none

theorem SameShells.place (h : f.SameShells g) (owner : NodeId) (i : Nat) (child : NodeId) :
    f.SameShells (g.place owner i child) :=
  place_induction i (h.update fun n => n.shell_setSlot i _) (fun _ q hk => hk.setParent q none)
    fun _ hk => hk.setParent child _

theorem SameShells.append (h : f.SameShells g) (owner : NodeId) (i : Nat) (child : NodeId) :
    f.SameShells (g.append owner i child) :=
  (h.update fun n => n.shell_setSlot i _).setParent child _

theorem SameShells.cleared (h : f.SameShells g) (owner : NodeId) (n : Node) (i : Nat) :
    f.SameShells (g.cleared owner n i) :=
  cleared_induction n i (h.update fun n => n.shell_setSlot i _) fun _ q hk => hk.setParent q none

/-- What a slot holds points back at the owner of the slot. -/
theorem WellContained.parent?_of_mem_slotAt (h : f.WellContained) (hc : c ∈ (f.slotAt p i).nodes) :
    f.parent? c = some p := by
  cases hn : f.node? p with
  | none => simp [slotAt, hn, Slot.nodes] at hc
  | some n =>
    rw [slotAt_of_node? hn] at hc
    exact h.parent_of_held (contents_of_node? hn ▸ Node.mem_contents_of_slot hc)

/-- A node with a container is in one of its slots. -/
theorem WellContained.exists_slotAt (h : f.WellContained) (hc : f.parent? c = some p) :
    ∃ i, c ∈ (f.slotAt p i).nodes := by
  have hmem : c ∈ f.contents p := List.count_pos_iff.mp (by rw [h.held_once hc]; exact Nat.one_pos)
  obtain ⟨n, hn, hmem⟩ := exists_node?_of_mem_contents hmem
  obtain ⟨s, hs, hcs⟩ := List.mem_flatMap.mp hmem
  obtain ⟨i, hi⟩ := List.mem_iff_getElem?.mp hs
  exact ⟨i, by simpa [slotAt, hn, Node.slot, hi] using hcs⟩

/-- No node is in two slots: in its container it counts once, and emptying a slot of it takes that
one away. -/
theorem WellContained.slotAt_unique (h : f.WellContained) (hi : c ∈ (f.slotAt p i).nodes)
    (hk : c ∈ (f.slotAt q k).nodes) : q = p ∧ k = i := by
  have hparent := h.parent?_of_mem_slotAt hi
  obtain rfl : p = q := Option.some.inj (hparent.symm.trans (h.parent?_of_mem_slotAt hk))
  refine ⟨rfl, ?_⟩
  obtain ⟨n, hn⟩ := exists_node?_of_contains (parent?_eq_some.mp hparent).2
  rw [slotAt_of_node? hn] at hi hk
  by_contra hne
  have hlt : i < n.slots.length := by
    by_contra hge
    simp [Node.slot, List.getElem?_eq_none (Nat.le_of_not_lt hge), Slot.nodes] at hi
  have hcount := n.count_contents_setSlot i .absent c hlt
  have hone : n.contents.count c = 1 := contents_of_node? hn ▸ h.held_once hparent
  have hin : 0 < (n.slot i).nodes.count c := List.count_pos_iff.mpr hi
  have hleft : 0 < (n.setSlot i .absent).contents.count c := by
    refine List.count_pos_iff.mpr (Node.mem_contents_of_slot (i := k) ?_)
    rwa [Node.slot_setSlot_of_ne (Ne.symm hne)]
  rw [show Slot.absent.nodes = [] from rfl, List.count_nil] at hcount
  omega

/-- Detaching takes the node out of every slot. -/
theorem WellContained.slotAt_detach (h : f.WellContained) (id j : NodeId) (k : Nat) :
    (f.detach id).2.slotAt j k = (f.slotAt j k).without id := by
  have hkeep : f.parent? id ≠ some j → (f.slotAt j k).without id = f.slotAt j k := fun hne =>
    Slot.without_of_not_mem fun hm => hne (h.parent?_of_mem_slotAt hm)
  unfold Forest.detach
  cases hp : f.parent? id with
  | none => exact (hkeep (by simp [hp])).symm
  | some p =>
    simp only [slotAt_setParent, slotAt_update]
    split
    · next hj =>
      subst hj
      cases hn : f.node? j with
      | none => simp [slotAt, hn, Slot.without]
      | some n => simpa [slotAt, hn] using n.slot_release id k
    · next hj => exact (hkeep (by simpa [hp] using Ne.symm hj)).symm

theorem slotAt_place (hn : f.node? owner = some n) (hi : i < n.slots.length) (j : NodeId)
    (k : Nat) :
    (f.place owner i child).slotAt j k =
      if j = owner ∧ k = i then .child child else f.slotAt j k := by
  refine place_induction (motive := fun g => g.slotAt j k = _) i ?_ (fun g q h => ?_) fun g h => ?_
  · exact slotAt_update_setSlot hn hi rfl j k
  · rwa [slotAt_setParent]
  · rwa [slotAt_setParent]

theorem slotAt_append (hn : f.node? owner = some n) (hi : i < n.slots.length) (j : NodeId)
    (k : Nat) :
    (f.append owner i child).slotAt j k =
      if j = owner ∧ k = i then grown n i child else f.slotAt j k := by
  unfold append
  rw [slotAt_setParent]
  exact slotAt_update_setSlot hn hi rfl j k

theorem slotAt_cleared (hn : f.node? owner = some n) (hi : i < n.slots.length) (j : NodeId)
    (k : Nat) :
    (f.cleared owner n i).slotAt j k = if j = owner ∧ k = i then .absent else f.slotAt j k := by
  refine cleared_induction (motive := fun g => g.slotAt j k = _) n i ?_ fun g q h => ?_
  · exact slotAt_update_setSlot hn hi rfl j k
  · rwa [slotAt_setParent]

theorem grown_eq (ht : n.Typed) (hd : n.DeclaresChild i true) (child : NodeId) :
    grown n i child = .children ((n.slot i).nodes ++ [child]) := by
  obtain ⟨p, hp, hk, hm⟩ := hd
  have hs := ht.slot hp
  unfold grown
  cases hsl : n.slot i <;> simp_all [Property.Admits, Slot.nodes]

/-- From `f` to `g` the child `c` went into the slot `i` of `p`, which then holds `content`. -/
structure Attached (f g : Forest) (p : NodeId) (i : Nat) (c : NodeId) (content : Slot) : Prop where
  filled : g.slotAt p i = content
  /-- Another slot of the container is as before, unless the child moves here from there. -/
  left : ∀ k, k ≠ i → g.slotAt p k = (f.slotAt p k).without c
  elsewhere : ∀ j k, j ≠ p → g.slotAt j k = f.slotAt j k
  /-- The child is in no other slot of the whole forest. -/
  only_there : ∀ j k, c ∈ (g.slotAt j k).nodes → j = p ∧ k = i
  linked : g.parent? c = some p
  /-- What the child took the place of has no container. -/
  displaced : ∀ q, q ≠ c → f.slotAt p i = .child q → g.parent? q = none
  links : ∀ j, j ≠ c → f.slotAt p i ≠ .child j → g.parent? j = f.parent? j
  shells : f.SameShells g

/-- From `f` to `g` the node `c` was taken out of the slot `i` of `p`. -/
structure Removed (f g : Forest) (p : NodeId) (i : Nat) (c : NodeId) : Prop where
  held : c ∈ (f.slotAt p i).nodes
  taken : g.slotAt p i = (f.slotAt p i).without c
  elsewhere : ∀ j k, (j, k) ≠ (p, i) → g.slotAt j k = f.slotAt j k
  unlinked : g.parent? c = none
  links : ∀ j, j ≠ c → g.parent? j = f.parent? j
  shells : f.SameShells g

/-- What becomes of the slots and of the links settles the rest. -/
theorem WellContained.attached (h : f.WellContained) {content : Slot}
    (hfree : f.parent? c = none ∨ f.parent? c = some p)
    (hslots : ∀ j k, g.slotAt j k =
      if j = p ∧ k = i then content else (f.slotAt j k).without c)
    (hlinks : ∀ j, g.parent? j =
      if j = c then some p else if f.slotAt p i = .child j then none else f.parent? j)
    (hshells : f.SameShells g) : f.Attached g p i c content where
  filled := by rw [hslots, if_pos ⟨rfl, rfl⟩]
  left k hk := by rw [hslots, if_neg fun h => hk h.2]
  elsewhere j k hj := by
    rw [hslots, if_neg fun h => hj h.1]
    refine Slot.without_of_not_mem fun hm => ?_
    have hparent := h.parent?_of_mem_slotAt hm
    rcases hfree with hfree | hfree
    · simp [hparent] at hfree
    · exact hj (Option.some.inj (hparent.symm.trans hfree))
  only_there j k hm := by
    by_contra hne
    rw [hslots, if_neg hne] at hm
    exact Slot.not_mem_without hm
  linked := by rw [hlinks, if_pos rfl]
  displaced q hq hs := by rw [hlinks, if_neg hq, if_pos hs]
  links j hj hs := by rw [hlinks, if_neg hj, if_neg hs]
  shells := hshells

theorem WellContained.removed (h : f.WellContained) (hc : c ∈ (f.slotAt p i).nodes)
    (hslots : ∀ j k, g.slotAt j k = (f.slotAt j k).without c)
    (hlinks : ∀ j, g.parent? j = if j = c then none else f.parent? j)
    (hshells : f.SameShells g) : f.Removed g p i c where
  held := hc
  taken := hslots p i
  elsewhere j k hne := by
    rw [hslots]
    exact Slot.without_of_not_mem fun hm => hne (Prod.ext_iff.mpr (h.slotAt_unique hc hm))
  unlinked := by rw [hlinks, if_pos rfl]
  links j hj := by rw [hlinks, if_neg hj]
  shells := hshells

section Detached
variable (h : f.WellContained) (hn : f.node? p = some n)
include h hn

/-- The owner of a detached child declares what it did and holds the rest. -/
theorem WellContained.owner_detach (c : NodeId) :
    ∃ m, (f.detach c).2.node? p = some m ∧ m.Typed ∧ m.descriptor = n.descriptor ∧
      ∀ i, m.slot i = (f.slotAt p i).without c := by
  obtain ⟨m, hm, hdesc⟩ := exists_node?_detach hn c
  refine ⟨m, hm, (h.detach c).typed p m hm, hdesc, fun i => ?_⟩
  rw [← slotAt_of_node? hm, h.slotAt_detach]

theorem WellContained.attached_place (hd : n.DeclaresChild i false) (hc : f.contains c)
    (hfree : f.parent? c = none ∨ f.parent? c = some p) :
    f.Attached ((f.detach c).2.place p i c) p i c (.child c) := by
  obtain ⟨m, hm, ht, hdesc, hslot⟩ := h.owner_detach hn c
  obtain ⟨q, hq, -⟩ := hd
  have hlt : i < m.slots.length := ht.lt_length (hdesc ▸ hq)
  refine h.attached hfree (fun j k => ?_) (fun j => ?_) ?_
  · rw [slotAt_place hm hlt, h.slotAt_detach]
  · have hfreed : m.slot i = .child j ↔ f.slotAt p i = .child j ∧ j ≠ c := by
      rw [hslot, Slot.without_eq_child]
    rw [parent?_place hm (by simpa), parent?_detach]
    grind
  · exact ((SameShells.refl f).detach c).place p i c

theorem WellContained.attached_append (hd : n.DeclaresChild i true) (hc : f.contains c)
    (hfree : f.parent? c = none ∨ f.parent? c = some p) :
    f.Attached ((f.detach c).2.append p i c) p i c
      (.children ((f.slotAt p i).nodes.filter (· ≠ c) ++ [c])) := by
  obtain ⟨m, hm, ht, hdesc, hslot⟩ := h.owner_detach hn c
  have hd' : m.DeclaresChild i true := by
    unfold Node.DeclaresChild
    rwa [hdesc]
  obtain ⟨q, hq, hk, hmulti⟩ := hd
  have hlt : i < m.slots.length := ht.lt_length (hdesc ▸ hq)
  -- the slot is for a collection, so nothing is displaced
  have hmany : ∀ j, f.slotAt p i ≠ .child j := fun j hs => by
    have hadmits := (h.typed p n hn).slot hq
    rw [slotAt_of_node? hn] at hs
    simp [hs, Property.Admits, hmulti] at hadmits
  refine h.attached hfree (fun j k => ?_) (fun j => ?_) ?_
  · rw [slotAt_append hm hlt, h.slotAt_detach, grown_eq ht hd', hslot, Slot.nodes_without]
  · rw [parent?_append hm (by simpa), parent?_detach, if_neg (hmany j)]
    grind
  · exact ((SameShells.refl f).detach c).append p i c

/-- A cleared slot gives up the one node that it holds. -/
theorem WellContained.removed_cleared (hd : n.DeclaresChild i false)
    (hs : f.slotAt p i = .child c) : f.Removed (f.cleared p n i) p i c := by
  obtain ⟨q, hq, -⟩ := hd
  have hlt := (h.typed p n hn).lt_length hq
  have hc : c ∈ (f.slotAt p i).nodes := by simp [hs, Slot.nodes]
  refine h.removed hc (fun j k => ?_) (fun j => ?_) ((SameShells.refl f).cleared p n i)
  · rw [slotAt_cleared hn hlt]
    split
    · next hjk => rw [hjk.1, hjk.2, hs, Slot.without, if_pos rfl]
    · next hjk =>
      exact (Slot.without_of_not_mem fun hm => hjk (h.slotAt_unique hc hm)).symm
  · rw [parent?_cleared, ← slotAt_of_node? hn, hs]
    grind

end Detached

theorem WellContained.removed_detach (h : f.WellContained) (hp : f.parent? c = some p) :
    ∃ i, f.Removed (f.detach c).2 p i c := by
  obtain ⟨i, hi⟩ := h.exists_slotAt hp
  exact ⟨i, h.removed hi (h.slotAt_detach c) (parent?_detach f c)
    ((SameShells.refl f).detach c)⟩

/-- The exact outcome of an edit that puts `c` into the property `name` of `p`, for one child or for
any number: it succeeds if the name is that of such a property, `c` has no other container, and `c`
is neither `p` nor a container of it. What the slot holds in the end depends on what it held. -/
structure AttachOutcome (f : Forest) (p : NodeId) (n : Node) (name : String) (c : NodeId)
    (multiple : Bool) (edit : Edit) (answer : Except ForestError Forest) (content : Slot → Slot) :
    Prop where
  succeeds_iff : (∃ g, answer = .ok g) ↔
    (∃ i, n.NamesChild name i multiple) ∧ (f.parent? c = none ∨ f.parent? c = some p) ∧
      ¬ ReflTransGen f.Below p c
  refused : (∀ g, answer ≠ .ok g) → f.perform edit = f
  attached : ∀ g, answer = .ok g → f.perform edit = g ∧
    ∃ i, n.NamesChild name i multiple ∧ f.Attached g p i c (content (f.slotAt p i))

/-- The exact outcome of emptying the property `name` of `p`. -/
structure ClearOutcome (f : Forest) (p : NodeId) (n : Node) (name : String) : Prop where
  succeeds_iff : (∃ answer, f.clearChild p name = .ok answer) ↔ ∃ i, n.NamesChild name i false
  refused : (∀ answer, f.clearChild p name ≠ .ok answer) → f.perform (.clearChild p name) = f
  cleared : ∀ held g, f.clearChild p name = .ok (held, g) → f.perform (.clearChild p name) = g ∧
    ∃ i, n.NamesChild name i false ∧
      match held with
      | some q => f.slotAt p i = .child q ∧ f.Removed g p i q
      | none => f.slotAt p i = .absent ∧ g = f

/-- The exact outcome of detaching `c`. -/
structure DetachOutcome (f : Forest) (c : NodeId) : Prop where
  free : f.parent? c = none → f.detach c = (false, f)
  held : ∀ p, f.parent? c = some p →
    (f.detach c).1 = true ∧ ∃ i, f.Removed (f.detach c).2 p i c

section Outcomes
variable (h : f.WellContained) (hn : f.node? p = some n)
include h hn

/-- An attempt to attach has the exact outcome when the name chooses the slot and the child comes
there as it should. -/
theorem WellContained.attach_outcome (hc : f.contains c) {multiple : Bool} {edit : Edit}
    {content : Slot → Slot} {choice : Node → Except ForestError Nat} {put : Nat → Forest}
    (hchoice : ∀ i, choice n = .ok i ↔ n.NamesChild name i multiple)
    (hput : ∀ i, n.NamesChild name i multiple →
      (f.parent? c = none ∨ f.parent? c = some p) →
      f.Attached (put i) p i c (content (f.slotAt p i)))
    (hedit : f.perform edit = f.accept (f.attach p name c choice put)) :
    f.AttachOutcome p n name c multiple edit (f.attach p name c choice put) content := by
  have hlineage := mem_lineage_iff (a := c) h.acyclic (contains_of_node? hn)
  refine ⟨?_, fun hno => ?_, fun g hg => ?_⟩
  · constructor
    · rintro ⟨g, hg⟩
      obtain ⟨m, i, hm, -, hi, hfree, hl, -⟩ := attach_eq_ok_iff.mp hg
      obtain rfl : n = m := Option.some.inj (hn.symm.trans hm)
      exact ⟨⟨i, (hchoice i).mp hi⟩, hfree, fun hr => hl (hlineage.mpr hr)⟩
    · rintro ⟨⟨i, hi⟩, hfree, hr⟩
      exact ⟨put i, attach_eq_ok_iff.mpr ⟨n, i, hn, hc, (hchoice i).mpr hi, hfree,
        fun hl => hr (hlineage.mp hl), rfl⟩⟩
  · rw [hedit]
    cases hanswer : f.attach p name c choice put with
    | error e => rfl
    | ok g => exact absurd hanswer (hno g)
  · refine ⟨by rw [hedit, hg]; rfl, ?_⟩
    obtain ⟨m, i, hm, -, hi, hfree, -, rfl⟩ := attach_eq_ok_iff.mp hg
    obtain rfl : n = m := Option.some.inj (hn.symm.trans hm)
    exact ⟨i, (hchoice i).mp hi, hput i ((hchoice i).mp hi) hfree⟩

theorem WellContained.setChild_outcome (hc : f.contains c) (name : String) :
    f.AttachOutcome p n name c false (.setChild p name c) (f.setChild p name c)
      fun _ => .child c := by
  show f.AttachOutcome p n name c false _ (f.attach p name c (·.singleChild name)
    fun i => (f.detach c).2.place p i c) _
  exact h.attach_outcome hn hc (fun i => (h.typed p n hn).singleChild_eq_ok_iff)
    (fun i hi hfree => h.attached_place hn hi.2 hc hfree) rfl

theorem WellContained.addChild_outcome (hc : f.contains c) (name : String) :
    f.AttachOutcome p n name c true (.addChild p name c) (f.addChild p name c)
      fun s => .children (s.nodes.filter (· ≠ c) ++ [c]) := by
  show f.AttachOutcome p n name c true _ (f.attach p name c (·.childCollection name)
    fun i => (f.detach c).2.append p i c) _
  exact h.attach_outcome hn hc (fun i => (h.typed p n hn).childCollection_eq_ok_iff)
    (fun i hi hfree => h.attached_append hn hi.2 hc hfree) rfl

theorem WellContained.clearChild_outcome (name : String) : f.ClearOutcome p n name := by
  have ht := h.typed p n hn
  have hok : ∀ held g, f.clearChild p name = .ok (held, g) ↔ ∃ i, n.singleChild name = .ok i ∧
      held = (n.slot i).single? ∧ g = f.cleared p n i := fun held g => by
    simp only [Forest.clearChild, get, hn, bind, Except.bind, pure, Except.pure]
    cases n.singleChild name with
    | error e => simp
    | ok i =>
      simp only [Except.ok.injEq, exists_eq_left', Forest.cleared, Slot.single?]
      cases n.slot i <;> simp [eq_comm]
  refine ⟨?_, fun hno => ?_, fun held g hg => ?_⟩
  · constructor
    · rintro ⟨⟨held, g⟩, hg⟩
      obtain ⟨i, hi, -⟩ := (hok held g).mp hg
      exact ⟨i, ht.singleChild_eq_ok_iff.mp hi⟩
    · rintro ⟨i, hi⟩
      exact ⟨_, (hok _ _).mpr ⟨i, ht.singleChild_eq_ok_iff.mpr hi, rfl, rfl⟩⟩
  · cases hans : f.clearChild p name with
    | error e => simp [perform, hans, accept, Except.map]
    | ok answer => exact absurd hans (hno answer)
  · obtain ⟨i, hi, rfl, rfl⟩ := (hok held g).mp hg
    have hname := ht.singleChild_eq_ok_iff.mp hi
    refine ⟨by simp [perform, hg, accept, Except.map], i, hname, ?_⟩
    have hslot := slotAt_of_node? hn i
    obtain ⟨-, q, hq, hk, hm⟩ := id hname
    have hadmits := ht.slot hq
    cases hs : n.slot i with
    | child c => exact ⟨hslot.trans hs, h.removed_cleared hn hname.2 (hslot.trans hs)⟩
    | absent =>
      refine ⟨hslot.trans hs, ?_⟩
      simp only [Forest.cleared, hs]
      exact update_eq_self hn (by rw [← hs, Node.setSlot_slot])
    | _ => simp_all [Property.Admits]

end Outcomes

theorem WellContained.detach_outcome (h : f.WellContained) (c : NodeId) : f.DetachOutcome c where
  free hp := by simp [Forest.detach, hp]
  held p hp := ⟨by simp [Forest.detach, hp], h.removed_detach hp⟩

/-- Where containment is whole, every edit of it has one exact outcome: a child is put where it may
go, and only there, and what is emptied or detached is the one place that the edit names. -/
theorem containment_edits_exact (h : f.WellContained) (hn : f.node? p = some n)
    (hc : f.contains c) (name : String) :
    f.AttachOutcome p n name c false (.setChild p name c) (f.setChild p name c)
        (fun _ => .child c) ∧
      f.AttachOutcome p n name c true (.addChild p name c) (f.addChild p name c)
        (fun s => .children (s.nodes.filter (· ≠ c) ++ [c])) ∧
      f.ClearOutcome p n name ∧ f.DetachOutcome c :=
  ⟨h.setChild_outcome hn hc name, h.addChild_outcome hn hc name, h.clearChild_outcome hn name,
    h.detach_outcome c⟩

section Sample

def familyType : Descriptor :=
  ⟨⟨0, ⟨"test", "Family"⟩,
    [.child "head" "test.Family", .children "rest" "test.Family"], .dynamic "family"⟩, []⟩

/-- A head and two others under one node. -/
def family : Forest :=
  run {} [.create familyType, .create familyType, .create familyType, .create familyType,
    .setChild 0 "head" 1, .addChild 0 "rest" 2, .addChild 0 "rest" 3]

/-- The first of the others becomes the head. -/
theorem containment_edits_exact_family :
    family.WellContained ∧ family.contains 2 ∧
      ∃ n, family.node? 0 = some n ∧
        family.AttachOutcome 0 n "head" 2 false (.setChild 0 "head" 2) (family.setChild 0 "head" 2)
          (fun _ => .child 2) ∧
        family.AttachOutcome 0 n "head" 2 true (.addChild 0 "head" 2) (family.addChild 0 "head" 2)
          (fun s => .children (s.nodes.filter (· ≠ 2) ++ [2])) ∧
        family.ClearOutcome 0 n "head" ∧ family.DetachOutcome 2 := by
  have hwhole : family.WellContained := (sound_empty.run _).toWellContained
  have hc : family.contains 2 := by decide
  have hp : (family.node? 0).isSome := by decide
  obtain ⟨n, hn⟩ := Option.isSome_iff_exists.mp hp
  exact ⟨hwhole, hc, n, hn, containment_edits_exact hwhole hn hc "head"⟩

example : ((family.perform (.setChild 0 "head" 2)).slotAt 0 0,
    (family.perform (.setChild 0 "head" 2)).slotAt 0 1,
    (family.perform (.setChild 0 "head" 2)).parent? 1) = (.child 2, .children [3], none) := by
  decide

end Sample

end Forest

end Arbor
