import Arbor.Proofs.Forest.Preorder
import Arbor.Proofs.Forest.Realization

/-!
Walks through new trees. What a walk from a new node passes is that node and nodes that are not
older than the mark from which on the tree is new. So trees that were made one after the other have
no node in common, and changes elsewhere leave their walks alone; hence marked nodes that are listed
tree by tree, as each of them is made, stand in the order of the walk in the end.
-/
namespace Arbor

/-- A member on one side of related lists comes with the pair that it stands in. -/
theorem exists_mem_zip {α β : Type} {as : List α} {bs : List β} (h : as.length = bs.length) {a : α}
    (ha : a ∈ as) : ∃ b, (a, b) ∈ as.zip bs := by
  obtain ⟨i, hi, rfl⟩ := List.mem_iff_getElem.mp ha
  exact ⟨bs[i], List.mem_iff_getElem.mpr ⟨i, by simp [hi, ← h], by simp⟩⟩

/-- A list without repetitions, cut down to the members of a part of it, is that part. -/
theorem filter_eq_of_sublist {α : Type} [DecidableEq α] {part whole : List α}
    (h : part.Sublist whole) (hnodup : whole.Nodup) : whole.filter (· ∈ part) = part := by
  have hkept : part.filter (· ∈ part) = part := List.filter_eq_self.mpr (by simp)
  have hpart : part.Sublist (whole.filter (· ∈ part)) := by
    conv_lhs => rw [← hkept]
    exact h.filter _
  have hmembers : whole.filter (· ∈ part) ⊆ part := fun a ha => by
    simpa using (List.mem_filter.mp ha).2
  have hlength := ((hnodup.filter _).subperm hmembers).length_le
  exact (hpart.eq_of_length_le hlength).symm

namespace Forest
variable {f g k : Forest} {mark : Nat} {parent : Option NodeId} {id c : Nat} {d : Draft}
  {ids ids' marks marks' : List NodeId} {ds ds' : List Draft}

theorem children_of_node? {n : Node} (h : f.node? id = some n) : f.children id = n.children := by
  rw [children, h]
  rfl

/-- The walk from a new node is the same in every forest that has the same children for it and the
same cells from the mark on. -/
theorem Realizes.preorder_congr (h : f.Realizes mark parent id d)
    (hself : g.children id = f.children id)
    (hg : ∀ j, mark ≤ j → j < f.size → g.node? j = f.node? j) :
    g.Grounded id ∧ g.preorder id = f.preorder id := by
  have hboth : f.Grounded id ∧ g.Grounded id ∧ g.preorder id = f.preorder id := by
    induction h with
    | @intro parent id look parts ids hnode hchildren hshape hdistinct hnew hbelow ih =>
      have hlist : f.children id = ids.flatten := by
        rw [children_of_node? hnode, ← hchildren]
        rfl
      have hlength : ids.flatten.length = parts.flatten.length := by
        rw [List.length_flatten, List.length_flatten, hshape]
      have hchild : ∀ c ∈ f.children id,
          f.Grounded c ∧ g.Grounded c ∧ g.preorder c = f.preorder c := by
        intro c hc
        rw [hlist] at hc
        obtain ⟨d, hd⟩ := exists_mem_zip hlength hc
        have hcell := hg c (hnew c hc) (hbelow c d hd).lt_size
        exact ih c d hd (by rw [children, children, hcell])
      have hf : f.Grounded id := .intro fun c hc => (hchild c hc).1
      have hg' : g.Grounded id := .intro fun c hc => (hchild c (hself ▸ hc)).2.1
      refine ⟨hf, hg', ?_⟩
      rw [hg'.preorder_eq, hf.preorder_eq, hself]
      congr 1
      exact List.flatMap_congr fun c hc => (hchild c hc).2.2
  exact hboth.2

theorem Realizes.grounded (h : f.Realizes mark parent id d) : f.Grounded id :=
  (h.preorder_congr rfl fun _ _ _ => rfl).1

theorem Realizes.preorder_extends (h : f.Realizes mark parent id d) (hg : g.Extends f) :
    g.preorder id = f.preorder id := by
  refine (h.preorder_congr ?_ fun _ _ hlt => hg.older hlt).2
  rw [children, children, hg.older h.lt_size]

/-- A walk from a new node passes it and nodes from the mark on. -/
theorem Realizes.mem_preorder (h : f.Realizes mark parent id d) (hc : c ∈ f.preorder id) :
    (c = id ∨ mark ≤ c) ∧ c < f.size := by
  induction h with
  | @intro parent id look parts ids hnode hchildren hshape hdistinct hnew hbelow ih =>
    have hself : f.Realizes mark parent id (.node id look parts) :=
      .intro hnode hchildren hshape hdistinct hnew hbelow
    have hlist : f.children id = ids.flatten := by
      rw [children_of_node? hnode, ← hchildren]
      rfl
    rw [hself.grounded.preorder_eq, hlist, List.mem_cons, List.mem_flatMap] at hc
    rcases hc with rfl | ⟨b, hb, hc⟩
    · exact ⟨.inl rfl, hself.lt_size⟩
    · have hlength : ids.flatten.length = parts.flatten.length := by
        rw [List.length_flatten, List.length_flatten, hshape]
      obtain ⟨d, hd⟩ := exists_mem_zip hlength hb
      obtain ⟨hplace, hlt⟩ := ih b d hd hc
      refine ⟨.inr ?_, hlt⟩
      rcases hplace with rfl | hplace
      · exact hnew _ hb
      · exact hplace

/-- Walks from the nodes `ids`, one after the other, pass no node twice and meet the marked ones in
this order. -/
structure Lists (f : Forest) (ids marks : List NodeId) : Prop where
  nodup : (ids.flatMap f.preorder).Nodup
  sublist : marks.Sublist (ids.flatMap f.preorder)

theorem lists_nil (f : Forest) : f.Lists [] [] := ⟨.nil, .slnil⟩

theorem Lists.congr (h : f.Lists ids marks) (hg : ∀ c ∈ ids, g.preorder c = f.preorder c) :
    g.Lists ids marks := by
  have hsame := List.flatMap_congr hg
  exact ⟨hsame ▸ h.nodup, hsame ▸ h.sublist⟩

theorem Lists.append (h : f.Lists ids marks) (h' : f.Lists ids' marks')
    (hapart : ∀ c ∈ ids.flatMap f.preorder, c ∉ ids'.flatMap f.preorder) :
    f.Lists (ids ++ ids') (marks ++ marks') where
  nodup := by
    rw [List.flatMap_append]
    exact h.nodup.append h'.nodup hapart
  sublist := by
    rw [List.flatMap_append]
    exact h.sublist.append h'.sublist

/-- One node whose walk goes on with the walks from its children. -/
theorem Lists.node (hid : f.Grounded id) (h : f.Lists (f.children id) marks)
    (hnew : id ∉ (f.children id).flatMap f.preorder) : f.Lists [id] marks where
  nodup := by
    rw [List.flatMap_singleton, hid.preorder_eq]
    exact List.nodup_cons.mpr ⟨hnew, h.nodup⟩
  sublist := by
    rw [List.flatMap_singleton, hid.preorder_eq]
    exact h.sublist.cons id

section Roots
variable (h : List.Forall₂ (f.Realizes mark parent) ids ds)
include h

theorem forall_mem_preorder (hc : c ∈ ids.flatMap f.preorder) :
    (c ∈ ids ∨ mark ≤ c) ∧ c < f.size := by
  obtain ⟨id, hid, hc⟩ := List.mem_flatMap.mp hc
  have hone : ∀ id ∈ ids, c ∈ f.preorder id → (c = id ∨ mark ≤ c) ∧ c < f.size :=
    forall_of_forall₂ h fun _ _ hr => hr.mem_preorder
  obtain ⟨rfl | hle, hlt⟩ := hone id hid hc
  · exact ⟨.inl hid, hlt⟩
  · exact ⟨.inr hle, hlt⟩

theorem preorder_eq_of_extends (hg : g.Extends f) : ∀ c ∈ ids, g.preorder c = f.preorder c :=
  forall_of_forall₂ h fun _ _ hr => hr.preorder_extends hg

end Roots

/-- Trees that were made one after the other. -/
theorem Placed.lists_append (h : f.Placed g parent ids ds) (h' : g.Placed k parent ids' ds')
    (hlists : g.Lists ids marks) (hlists' : k.Lists ids' marks') :
    k.Lists (ids ++ ids') (marks ++ marks') := by
  have hkept := preorder_eq_of_extends h.realized h'.keeps
  refine (hlists.congr hkept).append hlists' fun c hc hc' => ?_
  rw [List.flatMap_congr hkept] at hc
  have hlt := (forall_mem_preorder h.realized hc).2
  rcases (forall_mem_preorder h'.realized hc').1 with hroot | hle
  · exact Nat.not_lt.mpr (h'.fresh c hroot) hlt
  · exact Nat.not_lt.mpr hle hlt

section Tending
variable {base : Forest} {look : Node} {done : List (List NodeId)} {parts : List (List Draft)}

theorem Tended.children_eq (h : base.Tended id look done parts f) :
    f.children id = done.flatten := by
  rw [children_of_node? h.node, h.typed.children_eq, h.contents]

theorem Tended.forall_mem_preorder (h : base.Tended id look done parts f)
    (hc : c ∈ done.flatten.flatMap f.preorder) : base.size ≤ c ∧ c < f.size := by
  obtain ⟨hroot | hle, hlt⟩ := Forest.forall_mem_preorder h.below hc
  · exact ⟨h.fresh c hroot, hlt⟩
  · exact ⟨hle, hlt⟩

/-- What is under the node, and then the trees that were made for the next property. -/
theorem Tended.lists_fill (h : base.Tended id look done parts f) (hid : id < base.size)
    (hnew : f.Placed g (some id) ids ds) {n : Node} (hrev : g.Revised k id n)
    (hlists : f.Lists done.flatten marks) (hlists' : g.Lists ids marks') :
    k.Lists (done ++ [ids]).flatten (marks ++ marks') := by
  have hkept : ∀ j, base.size ≤ j → k.node? j = g.node? j := fun j hj =>
    hrev.other (Nat.ne_of_gt (Nat.lt_of_lt_of_le hid hj))
  have hsize : f.size ≤ k.size := hrev.size ▸ hnew.keeps.size
  have hold : ∀ c ∈ done.flatten, k.preorder c = f.preorder c := by
    have hall := (List.forall₂_and_left _ _).mpr ⟨h.fresh, h.below⟩
    refine forall_of_forall₂ hall fun c d ⟨hc, hr⟩ => ?_
    refine (hr.preorder_congr ?_ fun j hj hlt => (hkept j hj).trans (hnew.keeps.older hlt)).2
    rw [children, children, hkept c hc, hnew.keeps.older hr.lt_size]
  have hfresh : ∀ c ∈ ids, k.preorder c = g.preorder c := by
    have hall := (List.forall₂_and_left _ _).mpr ⟨hnew.fresh, hnew.realized⟩
    refine forall_of_forall₂ hall fun c d ⟨hc, hr⟩ => ?_
    have hle := h.but.size
    refine (hr.preorder_congr ?_ fun j hj _ => hkept j (Nat.le_trans hle hj)).2
    rw [children, children, hkept c (Nat.le_trans hle hc)]
  rw [List.flatten_append, List.flatten_singleton]
  refine (hlists.congr hold).append (hlists'.congr hfresh) fun c hc hc' => ?_
  rw [List.flatMap_congr hold] at hc
  rw [List.flatMap_congr hfresh] at hc'
  have hlt := (h.forall_mem_preorder hc).2
  rcases (Forest.forall_mem_preorder hnew.realized hc').1 with hroot | hle
  · exact Nat.not_lt.mpr (hnew.fresh c hroot) hlt
  · exact Nat.not_lt.mpr hle hlt

/-- The node with all that is under it. -/
theorem Tended.lists_node (hl : look.Bare) (hid : id < base.size)
    (h : base.Tended id look done parts f) (hlists : f.Lists done.flatten marks) :
    f.Lists [id] marks := by
  rw [← h.children_eq] at hlists
  refine .node (h.realizes hl).grounded hlists fun hmem => ?_
  rw [h.children_eq] at hmem
  exact Nat.not_lt.mpr (h.forall_mem_preorder hmem).1 hid

section Others
variable {rest : List NodeId} (hl : look.Bare) (hid : id < base.size)
  (h : base.Tended id look done parts f) (hbut : g.ExtendsBut f rest)
  (hrest : ∀ c ∈ rest, c < base.size) (hnot : id ∉ rest)
include hl hid h hbut hrest hnot

/-- Changes of other nodes that were there before leave the node and all under it as they are. -/
theorem Tended.realizes_but : g.Realizes base.size none id (.node id look parts) ∧
    g.preorder id = f.preorder id := by
  have hcells : ∀ j, j = id ∨ base.size ≤ j → j < f.size → g.node? j = f.node? j := by
    rintro j (rfl | hj) hlt
    · exact hbut.older hlt hnot
    · exact hbut.older hlt fun hmem => Nat.not_lt.mpr hj (hrest j hmem)
  have hrealized := h.realizes hl
  refine ⟨hrealized.congr hcells, (hrealized.preorder_congr ?_ fun j hj => hcells j (.inr hj)).2⟩
  rw [children, children, hcells id (.inl rfl) hrealized.lt_size]

/-- The node, and then the others with the trees that were made under them. -/
theorem Tended.lists_cons (hlists : f.Lists done.flatten marks)
    (hrealized : List.Forall₂ (g.Realizes f.size parent) rest ds) (hlists' : g.Lists rest marks') :
    g.Lists (id :: rest) (marks ++ marks') := by
  have hwalk := (h.realizes_but hl hid hbut hrest hnot).2
  have hone : g.Lists [id] marks := (h.lists_node hl hid hlists).congr (by simpa using hwalk)
  refine hone.append hlists' fun c hc hc' => ?_
  rw [List.flatMap_singleton, hwalk] at hc
  obtain ⟨hplace, hlt⟩ := (h.realizes hl).mem_preorder hc
  rcases (Forest.forall_mem_preorder hrealized hc').1 with hroot | hle
  · rcases hplace with rfl | hle
    · exact hnot hroot
    · exact Nat.not_lt.mpr hle (hrest c hroot)
  · exact Nat.not_lt.mpr hle hlt

end Others

end Tending

end Forest

end Arbor
