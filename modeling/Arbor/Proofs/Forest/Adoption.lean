import Arbor.Forest.World
import Arbor.Proofs.Forest.Attachment

/-!
New nodes. A node in the last cell may be changed without the rest of the forest, and a node that
was made for an owner, and so points at it before it is in a slot, goes into a slot of the owner
without a trace elsewhere.
-/
namespace Arbor

/-- What a slot holds apart from other nodes and links to them. -/
def Slot.bare : Slot → Slot
  | .child _ => .absent
  | .children _ => .absent
  | .reference r => .reference { r with target := none }
  | s => s

theorem Slot.nodes_of_bare {s : Slot} (h : s.bare = s) : s.nodes = [] := by
  cases s with
  | child c => cases h
  | children cs => cases h
  | _ => rfl

namespace Node
variable {n : Node} {i : Nat} {p : Property} {s : Slot} {child : NodeId}

theorem setSlot_setSlot (n : Node) (i : Nat) (s s' : Slot) :
    (n.setSlot i s).setSlot i s' = n.setSlot i s' := by
  simp [setSlot]

theorem setSlot_slot (n : Node) (i : Nat) : n.setSlot i (n.slot i) = n := by
  have hset : n.slots.set i (n.slot i) = n.slots := by
    refine List.ext_getElem? fun j => ?_
    by_cases hj : i = j
    · subst hj
      cases hs : n.slots[i]? <;> simp [slot, hs, List.getElem?_set_self']
    · rw [List.getElem?_set_ne hj]
  rw [setSlot, hset]

theorem slot_setSlot (hi : i < n.slots.length) (s : Slot) : (n.setSlot i s).slot i = s := by
  simp [setSlot, slot, hi]

theorem slot_setSlot_of_ne {j : Nat} (h : i ≠ j) : (n.setSlot i s).slot j = n.slot j := by
  simp [setSlot, slot, List.getElem?_set_ne h]

theorem release_of_not_mem (h : child ∉ n.contents) : n.release child = n := by
  have hslots : n.slots.map (Slot.without child) = n.slots := by
    refine (List.map_congr_left fun s hs => ?_).trans (List.map_id n.slots)
    exact Slot.without_of_not_mem fun hc => h (List.mem_flatMap.mpr ⟨s, hs, hc⟩)
  simp [release, hslots]

/-- A property is found under its own name where no two have the same. -/
theorem propertyIndex?_of_getElem? (hd : (n.descriptor.properties.map (·.name)).Nodup)
    (hp : n.descriptor.properties[i]? = some p) :
    n.descriptor.propertyIndex? p.name = some i := by
  obtain ⟨hi, hpi⟩ := List.getElem?_eq_some_iff.mp hp
  rw [Descriptor.propertyIndex?, List.findIdx?_eq_some_iff_getElem]
  refine ⟨hi, by simp [hpi], fun j hj => ?_⟩
  have hjl := Nat.lt_trans hj hi
  have hne := List.pairwise_iff_getElem.mp hd j i (by simpa using hjl) (by simpa using hi) hj
  simpa [hpi] using hne

theorem property?_of_getElem? (hd : (n.descriptor.properties.map (·.name)).Nodup)
    (hp : n.descriptor.properties[i]? = some p) : n.descriptor.property? p.name = some p := by
  have hindex := propertyIndex?_of_getElem? hd hp
  rw [Descriptor.propertyIndex?, List.findIdx?_eq_some_iff_getElem] at hindex
  rw [Descriptor.property?, List.find?_eq_some_iff_getElem]
  obtain ⟨hi, -, hbefore⟩ := hindex
  refine ⟨by simp, i, hi, (List.getElem?_eq_some_iff.mp hp).2, fun j hj => ?_⟩
  simpa using hbefore j hj

theorem declared_of_getElem? (ht : n.Typed) (hd : (n.descriptor.properties.map (·.name)).Nodup)
    (hp : n.descriptor.properties[i]? = some p) : n.declared p.name = .ok (i, p) := by
  have hlt := ht.lt_length hp
  simp [declared, propertyIndex?_of_getElem? hd hp, hp, hlt]

theorem declaredOf_of_getElem? (ht : n.Typed) (hd : (n.descriptor.properties.map (·.name)).Nodup)
    (hp : n.descriptor.properties[i]? = some p) : n.declaredOf p.kind p.name = .ok i := by
  simp [declaredOf, declared_of_getElem? ht hd hp]

theorem singleChild_of_getElem? (ht : n.Typed) (hd : (n.descriptor.properties.map (·.name)).Nodup)
    (hp : n.descriptor.properties[i]? = some p) (hk : p.isChild) (hm : p.multiple = false) :
    n.singleChild p.name = .ok i := by
  simp [singleChild, declared_of_getElem? ht hd hp, hk, hm]

theorem childCollection_of_getElem? (ht : n.Typed)
    (hd : (n.descriptor.properties.map (·.name)).Nodup)
    (hp : n.descriptor.properties[i]? = some p) (hk : p.isChild) (hm : p.multiple) :
    n.childCollection p.name = .ok i := by
  simp [childCollection, declared_of_getElem? ht hd hp, hk, hm]

/-- What the slots of a node hold apart from other nodes. -/
def data (n : Node) : List Slot := n.slots.map Slot.bare

@[simp] theorem data_setParent (n : Node) (parent : Option NodeId) :
    (n.setParent parent).data = n.data := rfl

theorem data_setSlot (h : s.bare = (n.slot i).bare) : (n.setSlot i s).data = n.data := by
  calc (n.setSlot i s).data = (n.setSlot i (n.slot i)).data := by
        simp only [data, setSlot, List.map_set, h]
    _ = n.data := by rw [setSlot_slot]

/-- A node as it is made, with attributes and references at most. -/
structure Fresh (n : Node) : Prop where
  typed : n.Typed
  contents : n.contents = []
  parent : n.parent = none
  origin : n.origin = none
  pin : n.pin = none
  names : (n.descriptor.properties.map (·.name)).Nodup
  bare : ∀ s ∈ n.slots, s.bare = s

theorem fresh_blank {d : Descriptor} (h : (d.properties.map (·.name)).Nodup) :
    (blank d).Fresh where
  typed := typed_blank d
  contents := contents_blank d
  parent := rfl
  origin := rfl
  pin := rfl
  names := h
  bare s hs := by
    obtain rfl := List.eq_of_mem_replicate hs
    rfl

theorem slot_nodes_of_contents (h : n.contents = []) (i : Nat) : (n.slot i).nodes = [] :=
  List.eq_nil_iff_forall_not_mem.mpr fun c hc => by
    have hmem := mem_contents_of_slot hc
    simp [h] at hmem

theorem Fresh.slot_nodes (h : n.Fresh) (i : Nat) : (n.slot i).nodes = [] :=
  slot_nodes_of_contents h.contents i

/-- A node of the given type with these in its first slots. -/
def starting (d : Descriptor) (first : List Slot) : Node :=
  { blank d with slots := first ++ List.replicate (d.properties.length - first.length) .absent }

theorem blank_eq_starting {d : Descriptor} {count : Nat} (h : count ≤ d.properties.length) :
    blank d = starting d (List.replicate count .absent) := by
  rw [starting, List.length_replicate, List.replicate_append_replicate, Nat.add_sub_cancel' h]
  rfl

theorem starting_setSlot {d : Descriptor} {first : List Slot} (hi : i < first.length) :
    (starting d first).setSlot i s = starting d (first.set i s) := by
  rw [setSlot, starting, starting, List.set_append_left _ _ hi, List.length_set]

/-- Where the slots behind `i` are empty, what is put behind the content of slot `i` comes behind
all contents. -/
theorem contents_setSlot_append {extra : List NodeId} (hi : i < n.slots.length)
    (hs : s.nodes = (n.slot i).nodes ++ extra) (hempty : ∀ j, i < j → (n.slot j).nodes = []) :
    (n.setSlot i s).contents = n.contents ++ extra := by
  have hafter : (n.slots.drop (i + 1)).flatMap Slot.nodes = [] := by
    rw [List.flatMap_eq_nil_iff]
    intro t ht
    obtain ⟨k, hk⟩ := List.mem_iff_getElem?.mp ht
    rw [List.getElem?_drop] at hk
    have hslot := hempty (i + 1 + k) (by omega)
    simpa [slot, hk] using hslot
  have hslot : n.slot i = n.slots[i] := by simp [slot, hi]
  have hold : n.contents = (n.slots.take i).flatMap Slot.nodes ++ (n.slot i).nodes := by
    rw [contents, ← List.take_append_drop i n.slots, List.flatMap_append,
      List.drop_eq_getElem_cons hi, List.flatMap_cons, hafter, hslot]
    simp
  rw [hold, contents, setSlot, List.set_eq_take_append_cons_drop, if_pos hi, List.flatMap_append,
    List.flatMap_cons, hafter, hs]
  simp

theorem Fresh.setSlot (h : n.Fresh) (hp : n.descriptor.properties[i]? = some p) (hs : p.Admits s)
    (hbare : s.bare = s) : (n.setSlot i s).Fresh where
  typed := h.typed.setSlot hp hs
  contents := by
    have hsame : s.nodes = (n.slot i).nodes ++ [] := by
      rw [Slot.nodes_of_bare hbare, h.slot_nodes, List.append_nil]
    rw [contents_setSlot_append (h.typed.lt_length hp) hsame fun j _ => h.slot_nodes j, h.contents,
      List.append_nil]
  parent := h.parent
  origin := h.origin
  pin := h.pin
  names := h.names
  bare u hu := by
    rcases List.mem_or_eq_of_mem_set hu with hu | rfl
    · exact h.bare u hu
    · exact hbare

/-- The place that a property of this name has. -/
theorem findIdx_of_getElem? (hd : (n.descriptor.properties.map (·.name)).Nodup)
    (hp : n.descriptor.properties[i]? = some p) :
    n.descriptor.properties.findIdx (·.name = p.name) = i :=
  (List.findIdx?_eq_some_iff_findIdx_eq.mp (propertyIndex?_of_getElem? hd hp)).2

end Node

namespace Forest
variable {f g : Forest} {owner child : NodeId} {n c : Node} {i : Nat} {name : String}

theorem update_alloc (f : Forest) (n : Node) (change : Node → Node) :
    (f.alloc n).2.update f.size change = (f.alloc (change n)).2 := by
  have hn : (f.alloc n).2.node? f.size = some n := by simp [node?_alloc]
  rw [update, hn]
  simp only [alloc, size]
  rw [Array.setIfInBounds_def, dif_pos (by simp), Array.set_push, dif_neg (by simp)]

theorem setProperty_alloc_at (f : Forest) (hn : n.Fresh) {p : Property}
    (hp : n.descriptor.properties[i]? = some p) (hk : p.kind = .attr) (v : Value) :
    (f.alloc n).2.setProperty f.size p.name v = .ok (f.alloc (n.setSlot i (.value v))).2 := by
  have hdeclared := Node.declaredOf_of_getElem? hn.typed hn.names hp
  rw [hk] at hdeclared
  have hnode : (f.alloc n).2.node? f.size = some n := by simp [node?_alloc]
  simp [setProperty, get, hnode, hdeclared, update_alloc, bind, Except.bind, pure, Except.pure]

theorem setProperty_alloc (f : Forest) (hn : n.Fresh) {p : Property}
    (hp : p ∈ n.descriptor.properties) (hk : p.kind = .attr) (v : Value) :
    ∃ m, (f.alloc n).2.setProperty f.size p.name v = .ok (f.alloc m).2 ∧ m.Fresh ∧
      m.descriptor = n.descriptor ∧ m.slots =
        n.slots.set (n.descriptor.properties.findIdx (·.name = p.name)) (.value v) := by
  obtain ⟨i, hi⟩ := List.mem_iff_getElem?.mp hp
  rw [Node.findIdx_of_getElem? hn.names hi]
  exact ⟨n.setSlot i (.value v), setProperty_alloc_at f hn hi hk v, hn.setSlot hi hk rfl, rfl, rfl⟩

theorem setReference_alloc (f : Forest) (hn : n.Fresh) {p : Property}
    (hp : p ∈ n.descriptor.properties) (hk : p.kind = .reference) {r : Reference}
    (hr : r.target = none) :
    ∃ m, (f.alloc n).2.setReference f.size p.name r = .ok (f.alloc m).2 ∧ m.Fresh ∧
      m.descriptor = n.descriptor ∧ m.slots =
        n.slots.set (n.descriptor.properties.findIdx (·.name = p.name)) (.reference r) := by
  obtain ⟨i, hi⟩ := List.mem_iff_getElem?.mp hp
  have hdeclared := Node.declaredOf_of_getElem? hn.typed hn.names hi
  rw [hk] at hdeclared
  rw [Node.findIdx_of_getElem? hn.names hi]
  have hbare : (Slot.reference r).bare = .reference r := by rw [Slot.bare, ← hr]
  refine ⟨n.setSlot i (.reference r), ?_, hn.setSlot hi hk hbare, rfl, rfl⟩
  have hnode : (f.alloc n).2.node? f.size = some n := by simp [node?_alloc]
  simp [setReference, get, hnode, hdeclared, update_alloc, bind, Except.bind, pure, Except.pure]

section ErrorNodes
variable {d : Descriptor} {world : World} {r : Registry}

theorem setProperty_starting (f : Forest) {first : List Slot} {p : Property}
    (hn : (Node.starting d first).Fresh) (hp : d.properties[i]? = some p) (hk : p.kind = .attr)
    (hi : i < first.length) (v : Value) :
    (f.alloc (.starting d first)).2.setProperty f.size p.name v =
        .ok (f.alloc (.starting d (first.set i (.value v)))).2 ∧
      (Node.starting d (first.set i (.value v))).Fresh := by
  rw [← Node.starting_setSlot hi]
  exact ⟨setProperty_alloc_at f hn hp hk v, hn.setSlot hp hk rfl⟩

/-- The places of the attributes of error nodes. -/
theorem errorNode_attrs (hdeclared : Kind.errorNode.properties <+: d.properties) :
    d.properties[0]? = some (.attr "message" "string") ∧
      d.properties[1]? = some (.attr "cause" "string") ∧
      d.properties[2]? = some (.attr "source_type" "string") := by
  have hbefore := List.prefix_iff_getElem?.mp hdeclared
  exact ⟨hbefore 0 (by decide), hbefore 1 (by decide), hbefore 2 (by decide)⟩

/-- An error node is a new node with its attributes in their places. -/
theorem createError_eq (hregister : world.registry.register .builtin .errorNode = (.ok d, r))
    (hdeclared : Kind.errorNode.properties <+: d.properties)
    (hnames : (d.properties.map (·.name)).Nodup) (message sourceType : String) :
    world.createError message sourceType = (.ok world.forest.size, ⟨r, (world.forest.alloc
        (.starting d [.value (.string message), .absent, .value (.string sourceType)])).2⟩) ∧
      (Node.starting d [.value (.string message), .absent, .value (.string sourceType)]).Fresh := by
  obtain ⟨hmessage, -, hsource⟩ := errorNode_attrs hdeclared
  have hthree : Node.blank d = .starting d [.absent, .absent, .absent] :=
    Node.blank_eq_starting hdeclared.length_le
  have hblank := Node.fresh_blank hnames
  rw [hthree] at hblank
  obtain ⟨hset₁, hfresh₁⟩ :=
    setProperty_starting world.forest hblank hmessage rfl (by simp) (.string message)
  obtain ⟨hset₂, hfresh₂⟩ :=
    setProperty_starting world.forest hfresh₁ hsource rfl (by simp) (.string sourceType)
  refine ⟨?_, hfresh₂⟩
  have hcreate : world.create .builtin .errorNode = (.ok world.forest.size,
      ⟨r, (world.forest.alloc (.starting d [.absent, .absent, .absent])).2⟩) := by
    rw [← hthree]
    simp only [World.create, World.register, hregister]
    rfl
  simp only [Property.attr] at hset₁ hset₂
  simp only [World.createError, hcreate, World.setProperties, hset₁, hset₂, Except.bind]
  rfl

theorem setCause_eq (f : Forest) (hdeclared : Kind.errorNode.properties <+: d.properties)
    {message sourceType : Slot} (hn : (Node.starting d [message, .absent, sourceType]).Fresh)
    (cause : String) :
    (f.alloc (.starting d [message, .absent, sourceType])).2.setCause f.size cause =
        .ok (f.alloc (.starting d [message, .value (.string cause), sourceType])).2 ∧
      (Node.starting d [message, .value (.string cause), sourceType]).Fresh :=
  setProperty_starting f hn (errorNode_attrs hdeclared).2.1 rfl (by simp) (.string cause)

end ErrorNodes

/-- The forest `g` is `f` with `n` in the place of what was at `id`. -/
structure Revised (f g : Forest) (id : NodeId) (n : Node) : Prop where
  size : g.size = f.size
  self : g.node? id = some n
  other {j} : j ≠ id → g.node? j = f.node? j

theorem ne_of_made (hn : f.node? owner = some n) (hfree : n.parent = none)
    (hc : f.node? child = some c) (hp : c.parent = some owner) : child ≠ owner := by
  rintro rfl
  rw [Option.some.inj (hc.symm.trans hn), hfree] at hp
  contradiction

theorem attachable_of_made (hn : f.node? owner = some n) (hfree : n.parent = none)
    (hc : f.node? child = some c) (hp : c.parent = some owner) (name : String) :
    f.attachable owner n name child c = .ok () := by
  have hne := ne_of_made hn hfree hc hp
  have hroot : f.parent? owner = none := by simp [parent?, hn, hfree]
  have hlink : f.parent? child = some owner :=
    parent?_eq_some.mpr ⟨⟨c, hc, hp⟩, contains_of_node? hn⟩
  simp [attachable, hlink, lineage, hroot, hne]

theorem node?_detach_of_made (hn : f.node? owner = some n) (hc : f.node? child = some c)
    (hp : c.parent = some owner) (hnew : child ∉ n.contents) (j : NodeId) :
    (f.detach child).2.node? j = if j = child then some (c.setParent none) else f.node? j := by
  have hlink : f.parent? child = some owner :=
    parent?_eq_some.mpr ⟨⟨c, hc, hp⟩, contains_of_node? hn⟩
  have hrelease : ∀ j, (f.update owner (·.release child)).node? j = f.node? j := by
    intro j
    rw [node?_update]
    split
    · next hj => rw [hn, Option.map_some, Node.release_of_not_mem hnew, hj, hn]
    · rfl
  simp only [detach, hlink, setParent, node?_update _ child, hrelease, hc, Option.map_some]

/-- A change of the owner that takes the child in. -/
theorem revised_of_made (hn : f.node? owner = some n) (hfree : n.parent = none)
    (hc : f.node? child = some c) (hp : c.parent = some owner) (hnew : child ∉ n.contents)
    (change : Node → Node) :
    f.Revised (((f.detach child).2.update owner change).setParent child (some owner)) owner
      (change n) := by
  have hne := ne_of_made hn hfree hc hp
  have hdetach := node?_detach_of_made hn hc hp hnew
  refine ⟨by simp [setParent], ?_, fun {j} hj => ?_⟩
  · rw [setParent, node?_update, if_neg hne.symm, node?_update, if_pos rfl, hdetach,
      if_neg hne.symm, hn, Option.map_some]
  · rw [setParent, node?_update, node?_update, node?_update, if_neg hj, if_neg hne, hdetach,
      hdetach, if_pos rfl]
    split
    · next hjc =>
      -- the link is taken away and set again
      rw [hjc, hc, Option.map_some, ← hp]
      rfl
    · rfl

theorem setChild_of_made (hn : f.node? owner = some n) (hfree : n.parent = none)
    (hc : f.node? child = some c) (hp : c.parent = some owner) (hnew : child ∉ n.contents)
    (hi : n.singleChild name = .ok i) (hempty : (n.slot i).nodes = []) :
    ∃ g, f.setChild owner name child = .ok g ∧
      f.Revised g owner (n.setSlot i (.child child)) := by
  have hrev := revised_of_made hn hfree hc hp hnew (·.setSlot i (.child child))
  have howner : (f.detach child).2.node? owner = some n := by
    rw [node?_detach_of_made hn hc hp hnew, if_neg (ne_of_made hn hfree hc hp).symm, hn]
  have hplace : (f.detach child).2.place owner i child =
      ((f.detach child).2.update owner (·.setSlot i (.child child))).setParent child
        (some owner) := by
    unfold place
    simp only [howner, Option.map_some, Option.getD_some]
    split
    · next h => simp [h, Slot.nodes] at hempty
    · rfl
  refine ⟨_, ?_, hplace ▸ hrev⟩
  simp [setChild, get, hn, hc, hi, attachable_of_made hn hfree hc hp, bind, Except.bind, pure,
    Except.pure]

theorem addChild_of_made (hn : f.node? owner = some n) (hfree : n.parent = none)
    (hc : f.node? child = some c) (hp : c.parent = some owner) (hnew : child ∉ n.contents)
    (hi : n.childCollection name = .ok i) :
    ∃ g, f.addChild owner name child = .ok g ∧
      f.Revised g owner (n.setSlot i (grown n i child)) := by
  refine ⟨(f.detach child).2.append owner i child, ?_, revised_of_made hn hfree hc hp hnew _⟩
  simp [addChild, get, hn, hc, hi, attachable_of_made hn hfree hc hp, bind, Except.bind, pure,
    Except.pure]

end Forest

end Arbor
