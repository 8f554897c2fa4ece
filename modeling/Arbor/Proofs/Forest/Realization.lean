import Arbor.Proofs.Forest.Adoption
import Arbor.Proofs.Forest.Ownership

/-!
Drafts of trees and the cells that realize them. A draft tells the cell of a node, the node without
its children and, for each property, the drafts that go into it. A node realizes a draft if it is in
the told cell and is the told node with the right children in its slots, each of which points back
at it and realizes its own draft. The nodes below are never older than a mark, so changes of older
cells leave a realized draft alone.
-/
namespace Arbor

section Pairs
variable {α β : Type} {R : α → β → Prop} {as : List α} {bs : List β}

/-- What related pairs tell about their first parts. -/
theorem forall_of_forall₂ {p : α → Prop} (h : List.Forall₂ R as bs) (hR : ∀ a b, R a b → p a) :
    ∀ a ∈ as, p a :=
  ((List.forall₂_and_left _ _).mp (h.imp fun a b hab => ⟨hR a b hab, hab⟩)).1

theorem forall₂_mem (h : List.Forall₂ R as bs) : List.Forall₂ (fun a b => a ∈ as ∧ R a b) as bs :=
  (List.forall₂_and_left _ _).mpr ⟨fun _ ha => ha, h⟩

end Pairs

/-- A tree of nodes on paper: a cell, a node without children, and what goes into each property. -/
inductive Draft where
  | node (id : NodeId) (look : Node) (parts : List (List Draft))

/-- A slot of the property `p` when these nodes go into it. -/
def Slot.filled (p : Property) (s : Slot) : List NodeId → Slot
  | [] => s
  | c :: rest => if p.multiple then .children (c :: rest) else .child c

theorem Slot.nodes_filled {p : Property} {s : Slot} {ids : List NodeId} (hs : s.nodes = [])
    (hfits : p.multiple ∨ ids.length ≤ 1) : (s.filled p ids).nodes = ids := by
  cases ids with
  | nil => exact hs
  | cons c rest =>
    by_cases hm : p.multiple
    · simp [filled, hm, nodes]
    · obtain rfl : rest = [] := by simpa [hm] using hfits
      simp [filled, hm, nodes]

/-- The slots of properties when nodes go into the first ones. -/
def fillSlots : List Property → List Slot → List (List NodeId) → List Slot
  | p :: ps, s :: ss, ids :: rest => s.filled p ids :: fillSlots ps ss rest
  | _, ss, _ => ss

namespace Node

/-- The node with other nodes in its first properties. -/
def filled (n : Node) (ids : List (List NodeId)) : Node :=
  { n with slots := fillSlots n.descriptor.properties n.slots ids }

/-- A node without parent and children, of a type whose property names are plain and differ. -/
structure Bare (n : Node) : Prop where
  typed : n.Typed
  contents : n.contents = []
  parent : n.parent = none
  names : (n.descriptor.properties.map (·.name)).Nodup
  plain : ∀ p ∈ n.descriptor.properties, '#' ∉ p.name.toList

section Filled
variable {n : Node} {done : List (List NodeId)} {ids : List NodeId} {p : Property} {i : Nat}

@[simp] theorem filled_descriptor : (n.filled done).descriptor = n.descriptor := rfl

@[simp] theorem filled_parent : (n.filled done).parent = n.parent := rfl

theorem fillSlots_nil (ps : List Property) (ss : List Slot) : fillSlots ps ss [] = ss := by
  cases ps <;> cases ss <;> rfl

@[simp] theorem filled_nil : n.filled [] = n := by
  rw [filled, fillSlots_nil]

theorem fillSlots_concat {ps : List Property} {ss : List Slot} {s : Slot}
    (hp : ps[done.length]? = some p) (hs : ss[done.length]? = some s) :
    fillSlots ps ss (done ++ [ids]) =
      (fillSlots ps ss done).set done.length (s.filled p ids) := by
  induction done generalizing ps ss with
  | nil =>
    obtain ⟨ps, rfl⟩ : ∃ rest, ps = p :: rest := by
      cases ps with
      | nil => simp at hp
      | cons q ps => exact ⟨ps, by simpa using hp⟩
    obtain ⟨ss, rfl⟩ : ∃ rest, ss = s :: rest := by
      cases ss with
      | nil => simp at hs
      | cons q ss => exact ⟨ss, by simpa using hs⟩
    simp [fillSlots, fillSlots_nil]
  | cons first done ih =>
    cases ps with
    | nil => simp at hp
    | cons q ps =>
      cases ss with
      | nil => simp at hs
      | cons u ss =>
        simp only [List.length_cons, List.getElem?_cons_succ] at hp hs
        simp [fillSlots, ih hp hs]

theorem getElem?_fillSlots {ps : List Property} {ss : List Slot} (hi : done.length ≤ i) :
    (fillSlots ps ss done)[i]? = ss[i]? := by
  induction done generalizing ps ss i with
  | nil => rw [fillSlots_nil]
  | cons first done ih =>
    cases ps with
    | nil => rfl
    | cons q ps =>
      cases ss with
      | nil => rfl
      | cons u ss =>
        simp only [List.length_cons] at hi
        obtain ⟨i, rfl⟩ : ∃ k, i = k + 1 := ⟨i - 1, by omega⟩
        simpa [fillSlots] using ih (by omega)

/-- Slots that nothing went into are as they were. -/
theorem slot_filled (hi : done.length ≤ i) : (n.filled done).slot i = n.slot i := by
  rw [slot, slot, filled, getElem?_fillSlots hi]

theorem filled_concat (ht : n.Typed) (hp : n.descriptor.properties[done.length]? = some p) :
    n.filled (done ++ [ids]) =
      (n.filled done).setSlot done.length ((n.slot done.length).filled p ids) := by
  have hlt := ht.lt_length hp
  have hs : n.slots[done.length]? = some (n.slot done.length) := by simp [slot, hlt]
  rw [filled, fillSlots_concat hp hs]
  rfl

theorem length_filled (n : Node) (done : List (List NodeId)) :
    (n.filled done).slots.length = n.slots.length := by
  show (fillSlots n.descriptor.properties n.slots done).length = _
  generalize n.descriptor.properties = ps
  generalize n.slots = ss
  induction done generalizing ps ss with
  | nil => rw [fillSlots_nil]
  | cons first done ih => cases ps <;> cases ss <;> simp [fillSlots, ih]

theorem filled_concat_nil (ht : n.Typed) (hp : n.descriptor.properties[done.length]? = some p) :
    n.filled (done ++ [[]]) = n.filled done := by
  rw [filled_concat ht hp, Slot.filled, ← slot_filled (Nat.le_refl _), setSlot_slot]

/-- What goes into the next property comes behind all that the node contains. -/
theorem contents_filled_concat (ht : n.Typed) (hn : n.contents = [])
    (hp : n.descriptor.properties[done.length]? = some p) (hfits : p.multiple ∨ ids.length ≤ 1) :
    (n.filled (done ++ [ids])).contents = (n.filled done).contents ++ ids := by
  have hlt : done.length < (n.filled done).slots.length := by
    rw [length_filled]
    exact ht.lt_length hp
  have hempty : ∀ j, done.length ≤ j → ((n.filled done).slot j).nodes = [] := by
    intro j hj
    rw [slot_filled hj, slot_nodes_of_contents hn]
  rw [filled_concat ht hp]
  refine contents_setSlot_append hlt ?_ fun j hj => hempty j (Nat.le_of_lt hj)
  rw [hempty _ (Nat.le_refl _), List.nil_append]
  exact Slot.nodes_filled (slot_nodes_of_contents hn _) hfits

theorem admits_filled {s : Slot} (hs : p.Admits s) (hk : ids ≠ [] → p.isChild) :
    p.Admits (s.filled p ids) := by
  cases ids with
  | nil => exact hs
  | cons a rest =>
    have hkind : p.kind = .child := by simpa [Property.isChild] using hk (by simp)
    by_cases hm : p.multiple
    · simpa [Slot.filled, hm, Property.Admits] using hkind
    · simpa [Slot.filled, hm, Property.Admits] using hkind

theorem Typed.filled_concat (ht : n.Typed) (hdone : (n.filled done).Typed)
    (hp : n.descriptor.properties[done.length]? = some p) (hk : ids ≠ [] → p.isChild) :
    (n.filled (done ++ [ids])).Typed := by
  rw [Node.filled_concat ht hp]
  exact hdone.setSlot hp (admits_filled (ht.slot hp) hk)

end Filled

end Node

namespace Forest
variable {f g k : Forest}

/-- The forest `g` is `f` with further cells. -/
structure Extends (g f : Forest) : Prop where
  size : f.size ≤ g.size
  older {j : Nat} : j < f.size → g.node? j = f.node? j

theorem Extends.refl (f : Forest) : f.Extends f := ⟨Nat.le_refl _, fun _ => rfl⟩

theorem Extends.trans (h₁ : k.Extends g) (h₂ : g.Extends f) : k.Extends f :=
  ⟨Nat.le_trans h₂.size h₁.size, fun hj =>
    (h₁.older (Nat.lt_of_lt_of_le hj h₂.size)).trans (h₂.older hj)⟩

theorem extends_alloc (f : Forest) (n : Node) : (f.alloc n).2.Extends f :=
  ⟨by simp, fun hj => by rw [node?_alloc, if_neg (Nat.ne_of_lt hj)]⟩

/-- The forest `g` is `f` with further cells, and with changes of the nodes `ids` at most. -/
structure ExtendsBut (g f : Forest) (ids : List NodeId) : Prop where
  size : f.size ≤ g.size
  older {j : Nat} : j < f.size → j ∉ ids → g.node? j = f.node? j

theorem Extends.but (h : g.Extends f) (ids : List NodeId) : g.ExtendsBut f ids :=
  ⟨h.size, fun hj _ => h.older hj⟩

theorem Revised.but {id : NodeId} {n : Node} {ids : List NodeId} (h : f.Revised g id n)
    (hid : id ∈ ids) : g.ExtendsBut f ids :=
  ⟨Nat.le_of_eq h.size.symm, fun _ hj => h.other (fun heq => hj (heq ▸ hid))⟩

theorem ExtendsBut.trans {ids : List NodeId} (h₁ : g.ExtendsBut f ids) (h₂ : k.ExtendsBut g ids) :
    k.ExtendsBut f ids :=
  ⟨Nat.le_trans h₁.size h₂.size, fun hj hnot =>
    (h₂.older (Nat.lt_of_lt_of_le hj h₁.size) hnot).trans (h₁.older hj hnot)⟩

theorem ExtendsBut.mono {ids ids' : List NodeId} (h : g.ExtendsBut f ids) (hids : ids ⊆ ids') :
    g.ExtendsBut f ids' :=
  ⟨h.size, fun hj hnot => h.older hj fun hmem => hnot (hids hmem)⟩

theorem extendsBut_of_changes {ids : List NodeId} {change : NodeId → Node → Node}
    (hsize : g.size = f.size)
    (hnode : ∀ j, g.node? j = if j ∈ ids then (f.node? j).map (change j) else f.node? j) :
    g.ExtendsBut f ids where
  size := Nat.le_of_eq hsize.symm
  older _ hnot := by rw [hnode, if_neg hnot]

/-- Changes of new nodes do not count. -/
theorem ExtendsBut.extends {ids : List NodeId} (h : k.ExtendsBut g ids) (hg : g.Extends f)
    (hids : ∀ id ∈ ids, f.size ≤ id) : k.Extends f where
  size := Nat.le_trans hg.size h.size
  older {j} hj := by
    have hnot : j ∉ ids := fun hmem => Nat.not_le.mpr hj (hids j hmem)
    rw [h.older (Nat.lt_of_lt_of_le hj hg.size) hnot, hg.older hj]

@[simp] theorem size_collectSince (f : Forest) (mark : Nat) (roots : List NodeId) :
    (f.collectSince mark roots).size = f.size := by
  unfold Forest.collectSince
  split
  · exact (survives_collect f _).size_eq
  · rfl

/-- Dropping new nodes leaves the older ones. -/
theorem Extends.collectSince (h : g.Extends f) (roots : List NodeId) :
    (g.collectSince f.size roots).Extends f := by
  unfold Forest.collectSince
  split
  · have hs := survives_collect g (List.range f.size ++ roots)
    refine ⟨?_, fun {j} hj => ?_⟩
    · rw [hs.size_eq]
      exact h.size
    · rw [← h.older hj]
      cases hn : g.node? j with
      | none =>
        cases hkept : (g.collect (List.range f.size ++ roots)).node? j with
        | none => rfl
        | some n => rw [hs.node?_eq hkept] at hn; cases hn
      | some n =>
        have hkept := hs.roots_kept (List.mem_append_left roots (List.mem_range.mpr hj))
          (contains_of_node? hn)
        obtain ⟨m, hm⟩ := exists_node?_of_contains hkept
        rw [hm, ← hs.node?_eq hm, hn]
  · exact h

/-- The cells `ids` hold these nodes, which have no children yet. -/
def Looks (f : Forest) (ids : List NodeId) (looks : List Node) : Prop :=
  List.Forall₂ (fun id look => f.node? id = some look ∧ look.Bare) ids looks

theorem Looks.lt_size {ids : List NodeId} {looks : List Node} (h : f.Looks ids looks) :
    ∀ id ∈ ids, id < f.size :=
  forall_of_forall₂ h fun _ _ hn => lt_size_of_node? hn.1

/-- The node `id` and all under it are as a draft says: it is in the cell of the draft, and it is the
node of the draft with others in its slots, which are its children in their order, and each of them
points back at it and is as its own draft says. The nodes under it differ and are not older than
`mark`. -/
inductive Realizes (f : Forest) (mark : Nat) : Option NodeId → NodeId → Draft → Prop
  | intro {parent : Option NodeId} {id : NodeId} {look : Node} {parts : List (List Draft)}
      {ids : List (List NodeId)} (hnode : f.node? id = some ((look.filled ids).setParent parent))
      (hchildren : (look.filled ids).children = ids.flatten)
      (hshape : ids.map List.length = parts.map List.length) (hdistinct : ids.flatten.Nodup)
      (hnew : ∀ c ∈ ids.flatten, mark ≤ c)
      (hbelow : ∀ c d, (c, d) ∈ ids.flatten.zip parts.flatten → Realizes f mark (some id) c d) :
      Realizes f mark parent id (.node id look parts)

section Frame
variable {mark mark' : Nat} {parent : Option NodeId} {id : Nat} {d : Draft}

theorem Realizes.exists_node? (h : f.Realizes mark parent id d) :
    ∃ n, f.node? id = some n ∧ n.parent = parent := by
  obtain ⟨hnode, -, -, -, -, -⟩ := h
  exact ⟨_, hnode, rfl⟩

theorem Realizes.lt_size (h : f.Realizes mark parent id d) : id < f.size := by
  obtain ⟨n, hn, -⟩ := h.exists_node?
  exact lt_size_of_node? hn

theorem Realizes.mono (h : f.Realizes mark parent id d) (hm : mark' ≤ mark) :
    f.Realizes mark' parent id d := by
  induction h with
  | intro hnode hchildren hshape hdistinct hnew _ ih =>
    exact .intro hnode hchildren hshape hdistinct (fun c hc => Nat.le_trans hm (hnew c hc)) ih

/-- Only the root and cells from the mark on count. -/
theorem Realizes.congr (h : f.Realizes mark parent id d)
    (hg : ∀ j, j = id ∨ mark ≤ j → j < f.size → g.node? j = f.node? j) :
    g.Realizes mark parent id d := by
  induction h with
  | @intro parent id look parts ids hnode hchildren hshape hdistinct hnew hbelow ih =>
    have hself := hg id (.inl rfl) (lt_size_of_node? hnode)
    refine .intro (hself.trans hnode) hchildren hshape hdistinct hnew fun c d hmem => ih c d hmem ?_
    rintro j (rfl | hj) hlt
    · exact hg j (.inr (hnew j (List.of_mem_zip hmem).1)) hlt
    · exact hg j (.inr hj) hlt

theorem Realizes.extends (h : f.Realizes mark parent id d) (hg : g.Extends f) :
    g.Realizes mark parent id d :=
  h.congr fun _ _ hlt => hg.older hlt

/-- The root gets another link, and what is below stays. -/
theorem Realizes.relink {parent' : Option NodeId} (h : f.Realizes mark parent id d)
    (hself : g.node? id = (f.node? id).map (·.setParent parent'))
    (hg : ∀ j, mark ≤ j → g.node? j = f.node? j) : g.Realizes mark parent' id d := by
  obtain ⟨hnode, hchildren, hshape, hdistinct, hnew, hbelow⟩ := h
  refine .intro (by rw [hself, hnode]; rfl) hchildren hshape hdistinct hnew fun c d hmem => ?_
  refine (hbelow c d hmem).congr ?_
  rintro j (rfl | hj) -
  · exact hg j (hnew j (List.of_mem_zip hmem).1)
  · exact hg j hj

end Frame

/-- Drafts that new nodes of `g` realize, all with this link, where `f` was the forest before. -/
structure Placed (f g : Forest) (parent : Option NodeId) (ids : List NodeId) (ds : List Draft) :
    Prop where
  keeps : g.Extends f
  distinct : ids.Nodup
  fresh : ∀ c ∈ ids, f.size ≤ c
  realized : List.Forall₂ (g.Realizes f.size parent) ids ds

section Placing
variable {parent : Option NodeId} {ids ids' : List NodeId} {ds ds' : List Draft}

theorem placed_nil (f : Forest) (parent : Option NodeId) : f.Placed f parent [] [] :=
  ⟨.refl f, .nil, by simp, .nil⟩

/-- A node without children in a new cell. -/
theorem placed_alloc (f : Forest) {look : Node} (hl : look.children = [])
    (parent : Option NodeId) :
    f.Placed (f.alloc (look.setParent parent)).2 parent [f.size] [.node f.size look []] where
  keeps := extends_alloc f _
  distinct := by simp
  fresh := by simp
  realized := by
    have hnode : (f.alloc (look.setParent parent)).2.node? f.size =
        some ((look.filled []).setParent parent) := by
      rw [Node.filled_nil]
      simp [node?_alloc]
    exact .cons (.intro hnode (by rw [Node.filled_nil, hl]; rfl) rfl .nil (by simp) (by simp)) .nil

theorem lt_size_of_realizes {mark : Nat} (h : List.Forall₂ (f.Realizes mark parent) ids ds) :
    ∀ c ∈ ids, c < f.size :=
  forall_of_forall₂ h fun _ _ hr => hr.lt_size

theorem Placed.lt_size (h : f.Placed g parent ids ds) : ∀ c ∈ ids, c < g.size :=
  lt_size_of_realizes h.realized

theorem Placed.of_extends (h : g.Placed k parent ids ds) (hg : g.Extends f) :
    f.Placed k parent ids ds where
  keeps := h.keeps.trans hg
  distinct := h.distinct
  fresh c hc := Nat.le_trans hg.size (h.fresh c hc)
  realized := h.realized.imp fun _ _ hr => hr.mono hg.size

theorem Placed.append (h₁ : f.Placed g parent ids ds) (h₂ : g.Placed k parent ids' ds') :
    f.Placed k parent (ids ++ ids') (ds ++ ds') where
  keeps := h₂.keeps.trans h₁.keeps
  distinct := by
    refine List.nodup_append.mpr ⟨h₁.distinct, h₂.distinct, fun a ha b hb => ?_⟩
    exact Nat.ne_of_lt (Nat.lt_of_lt_of_le (h₁.lt_size a ha) (h₂.fresh b hb))
  fresh c hc := by
    rcases List.mem_append.mp hc with hc | hc
    · exact h₁.fresh c hc
    · exact Nat.le_trans h₁.keeps.size (h₂.fresh c hc)
  realized := by
    refine List.rel_append ?_ ?_
    · exact h₁.realized.imp fun _ _ h => h.extends h₂.keeps
    · exact h₂.realized.imp fun _ _ h => h.mono h₁.keeps.size

/-- Roots that are older than all that is below them get another link. -/
theorem forall₂_relink {mark : Nat} {parent' : Option NodeId}
    (h : List.Forall₂ (f.Realizes mark parent) ids ds) (hold : ∀ id ∈ ids, id < mark)
    (hg : ∀ j, g.node? j = if j ∈ ids then (f.node? j).map (·.setParent parent') else f.node? j) :
    List.Forall₂ (g.Realizes mark parent') ids ds := by
  refine (forall₂_mem h).imp fun id d ⟨hid, hr⟩ => hr.relink (by rw [hg, if_pos hid]) fun j hj => ?_
  have hnot : j ∉ ids := fun hmem => Nat.not_lt.mpr hj (hold j hmem)
  rw [hg, if_neg hnot]

end Placing

/-- A node of `base` whose first properties are filled. What went into them is new, and of the older
nodes no other one is changed. -/
structure Tended (base : Forest) (id : Nat) (look : Node) (done : List (List NodeId))
    (parts : List (List Draft)) (f : Forest) : Prop where
  node : f.node? id = some (look.filled done)
  typed : (look.filled done).Typed
  contents : (look.filled done).contents = done.flatten
  shape : done.map List.length = parts.map List.length
  distinct : done.flatten.Nodup
  fresh : ∀ c ∈ done.flatten, base.size ≤ c
  below : List.Forall₂ (f.Realizes base.size (some id)) done.flatten parts.flatten
  but : f.ExtendsBut base [id]

section Tending
variable {base : Forest} {id : Nat} {look : Node} {done : List (List NodeId)}
  {parts : List (List Draft)} {ids : List NodeId} {ds : List Draft} {p : Property}

theorem tended_nil (hl : look.Bare) (hn : f.node? id = some look) : f.Tended id look [] [] f where
  node := by rw [Node.filled_nil, hn]
  typed := by rw [Node.filled_nil]; exact hl.typed
  contents := by rw [Node.filled_nil]; exact hl.contents
  shape := rfl
  distinct := .nil
  fresh := by simp
  below := .nil
  but := (Extends.refl f).but [id]

theorem Tended.realizes (hl : look.Bare) (h : base.Tended id look done parts f) :
    f.Realizes base.size none id (.node id look parts) := by
  have hchildren := h.typed.children_eq.trans h.contents
  refine .intro (h.node.trans ?_) hchildren h.shape h.distinct h.fresh fun c d hmem =>
    (List.forall₂_iff_zip.mp h.below).2 hmem
  show some (look.filled done) = some { look.filled done with parent := none }
  rw [← hl.parent]
  rfl

theorem Tended.extends (hid : id < base.size) (h : base.Tended id look done parts f)
    (hg : g.Extends f) : base.Tended id look done parts g where
  node := (hg.older (Nat.lt_of_lt_of_le hid h.but.size)).trans h.node
  typed := h.typed
  contents := h.contents
  shape := h.shape
  distinct := h.distinct
  fresh := h.fresh
  below := h.below.imp fun _ _ hr => hr.extends hg
  but := h.but.trans (hg.but [id])

/-- A property that gets nothing. -/
theorem Tended.pass (hl : look.Bare) (hp : look.descriptor.properties[done.length]? = some p)
    (h : base.Tended id look done parts f) :
    base.Tended id look (done ++ [[]]) (parts ++ [[]]) f where
  node := by rw [Node.filled_concat_nil hl.typed hp, h.node]
  typed := by rw [Node.filled_concat_nil hl.typed hp]; exact h.typed
  contents := by rw [Node.filled_concat_nil hl.typed hp]; simpa using h.contents
  shape := by simp [h.shape]
  distinct := by simpa using h.distinct
  fresh := by simpa using h.fresh
  below := by simpa using h.below
  but := h.but

theorem Tended.lt_size (h : base.Tended id look done parts f) : ∀ c ∈ done.flatten, c < f.size :=
  lt_size_of_realizes h.below

/-- What is new is not in the node yet. -/
theorem Tended.nodup_append (h : base.Tended id look done parts f)
    (hnew : f.Placed g (some id) ids ds) : (done.flatten ++ ids).Nodup := by
  refine List.nodup_append.mpr ⟨h.distinct, hnew.distinct, fun a ha b hb => ?_⟩
  exact Nat.ne_of_lt (Nat.lt_of_lt_of_le (h.lt_size a ha) (hnew.fresh b hb))

theorem Tended.fresh_append (h : base.Tended id look done parts f)
    (hnew : f.Placed g (some id) ids ds) : ∀ c ∈ done.flatten ++ ids, base.size ≤ c := by
  intro c hc
  rcases List.mem_append.mp hc with hc | hc
  · exact h.fresh c hc
  · exact Nat.le_trans h.but.size (hnew.fresh c hc)

/-- New nodes, made after the forest was `f`, are in the next property. -/
theorem Tended.fill (hl : look.Bare) (hid : id < base.size)
    (hp : look.descriptor.properties[done.length]? = some p) (hk : ids ≠ [] → p.isChild)
    (hfits : p.multiple ∨ ids.length ≤ 1) (h : base.Tended id look done parts f)
    (hnew : f.Placed g (some id) ids ds) (hrev : g.Revised k id (look.filled (done ++ [ids]))) :
    base.Tended id look (done ++ [ids]) (parts ++ [ds]) k where
  node := hrev.self
  typed := hl.typed.filled_concat h.typed hp hk
  contents := by
    rw [Node.contents_filled_concat hl.typed hl.contents hp hfits, h.contents]
    simp
  shape := by
    rw [List.map_append, List.map_append, h.shape]
    simp [hnew.realized.length_eq]
  distinct := by simpa using h.nodup_append hnew
  fresh := by
    simpa using h.fresh_append hnew
  below := by
    have hall : List.Forall₂ (fun c d => base.size ≤ c ∧ g.Realizes base.size (some id) c d)
        (done.flatten ++ ids) (parts.flatten ++ ds) := by
      refine (List.forall₂_and_left _ _).mpr ⟨h.fresh_append hnew, List.rel_append ?_ ?_⟩
      · exact h.below.imp fun _ _ hr => hr.extends hnew.keeps
      · exact hnew.realized.imp fun _ _ hr => hr.mono h.but.size
    have hkept : ∀ j, base.size ≤ j → k.node? j = g.node? j := fun j hj =>
      hrev.other (Nat.ne_of_gt (Nat.lt_of_lt_of_le hid hj))
    simp only [List.flatten_append, List.flatten_singleton]
    refine hall.imp fun c d hr => hr.2.congr ?_
    rintro j (rfl | hj) -
    · exact hkept j hr.1
    · exact hkept j hj
  but := (h.but.trans (hnew.keeps.but [id])).trans (hrev.but (by simp))

end Tending

end Forest

end Arbor
