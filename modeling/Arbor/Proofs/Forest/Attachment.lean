import Arbor.Proofs.Forest.Containment

/-!
The edits of a forest keep containment. Each edit is described by what it does to the links and to
the contents; that the count of a node among the contents still follows its link is then arithmetic.
Attaching goes through a detached child, so that a move inside one owner and a move to another
slot are the same case.
-/
namespace Arbor
open Relation

namespace Forest
variable {f g : Forest} {c p q id j owner child : NodeId} {n : Node} {i : Nat} {name : String}

theorem exists_node?_of_contains (h : f.contains id) : ∃ n, f.node? id = some n :=
  Option.isSome_iff_exists.mp h

theorem contains_of_node? (h : f.node? id = some n) : f.contains id := by simp [contains, h]

theorem get_eq_ok (h : f.get id = .ok n) : f.node? id = some n := by
  unfold get at h
  split at h
  · next hn => rw [hn, Except.ok.inj h]
  · cases h

theorem Typed.update (ht : f.Typed) {change : Node → Node}
    (hc : ∀ n, f.node? id = some n → (change n).Typed) : (f.update id change).Typed := by
  intro j n h
  rw [node?_update] at h
  split at h
  · obtain ⟨m, hm, rfl⟩ := Option.map_eq_some_iff.mp h
    exact hc m hm
  · exact ht j n h

theorem Typed.setParent (ht : f.Typed) (id : NodeId) (p : Option NodeId) :
    (f.setParent id p).Typed :=
  ht.update fun m hm => (ht id m hm).setParent p

/-- A change of one node that touches neither its link nor what it contains. -/
theorem WellContained.update (h : f.WellContained) {change : Node → Node}
    (hparent : ∀ n, (change n).parent = n.parent)
    (hcount : ∀ n x, f.node? id = some n → (change n).contents.count x = n.contents.count x)
    (htyped : ∀ n, f.node? id = some n → (change n).Typed) :
    (f.update id change).WellContained := by
  refine wellContained_of_count (fun p c => ?_) (acyclic_mono (fun c p hb => ?_) h.acyclic)
    (h.typed.update htyped)
  · rw [parent?_update_of_parent hparent, ← h.count_contents, contents_update]
    split
    · next hp =>
      subst hp
      cases hn : f.node? p with
      | none => simp [contents, hn]
      | some n => simpa [contents, hn] using hcount n c hn
    · rfl
  · simpa [Below, parent?_update_of_parent hparent] using hb

theorem parent?_detach (f : Forest) (id j : NodeId) :
    (f.detach id).2.parent? j = if j = id then none else f.parent? j := by
  unfold detach
  cases hp : f.parent? id with
  | none =>
    by_cases hj : j = id
    · simp [hj, hp]
    · simp [hj]
  | some p =>
    simp only [parent?_setParent_none]
    split
    · rfl
    · exact parent?_update_of_parent fun _ => rfl

@[simp] theorem contains_detach (f : Forest) (id j : NodeId) :
    (f.detach id).2.contains j = f.contains j := by
  unfold detach
  split <;> simp

@[simp] theorem size_detach (f : Forest) (id : NodeId) : (f.detach id).2.size = f.size := by
  unfold detach
  split <;> simp [setParent]

/-- Detaching takes the node out of everything and nothing else out of anything. -/
theorem WellContained.count_contents_detach (h : f.WellContained) (id j x : NodeId) :
    ((f.detach id).2.contents j).count x = if x = id then 0 else (f.contents j).count x := by
  unfold detach
  cases hp : f.parent? id with
  | none =>
    by_cases hx : x = id
    · simp [hx, h.count_contents, hp]
    · simp [hx]
  | some p =>
    obtain ⟨m, hm⟩ := exists_node?_of_contains (parent?_eq_some.mp hp).2
    simp only [contents_setParent, contents_update]
    by_cases hj : j = p
    · subst hj
      simp [hm, contents, Node.count_contents_release]
    · rw [if_neg hj]
      split
      · next hx => rw [hx, h.count_contents, hp, if_neg (by simpa using Ne.symm hj)]
      · rfl

theorem WellContained.detach (h : f.WellContained) (id : NodeId) :
    (f.detach id).2.WellContained := by
  refine wellContained_of_count (fun p c => ?_) (acyclic_mono (fun c p hb => ?_) h.acyclic) ?_
  · rw [h.count_contents_detach, parent?_detach, h.count_contents]
    split <;> simp
  · unfold Below at hb ⊢
    rw [parent?_detach] at hb
    split at hb
    · cases hb
    · exact hb
  · unfold Forest.detach
    split
    · exact h.typed
    · exact (h.typed.update fun m hm => (h.typed _ m hm).release id).setParent _ _

theorem exists_node?_detach (hn : f.node? owner = some n) (id : NodeId) :
    ∃ m, (f.detach id).2.node? owner = some m ∧ m.descriptor = n.descriptor := by
  unfold detach
  split
  · exact ⟨n, hn, rfl⟩
  · simp only [setParent, node?_update, hn]
    split_ifs <;> simp_all [Node.setParent, Node.release]

/-- The child is linked to the owner, and what was in the slot to nothing. -/
theorem parent?_place (hn : f.node? owner = some n) (hc : f.contains child) (i : Nat) (j : NodeId) :
    (f.place owner i child).parent? j =
      if j = child then some owner else if n.slot i = .child j then none else f.parent? j := by
  have hkeep : ∀ k, (f.update owner (·.setSlot i (.child child))).parent? k = f.parent? k :=
    fun k => parent?_update_of_parent fun _ => rfl
  unfold place
  simp only [hn, Option.map_some, Option.getD_some]
  have ho := contains_of_node? hn
  split
  · next q hq =>
    split
    · next hqc =>
      rw [parent?_setParent_some (by simpa) (by simpa), hkeep, hq, hqc]
      grind
    · next hqc =>
      rw [parent?_setParent_some (by simpa) (by simpa), parent?_setParent_none, hkeep, hq]
      grind
  · next hq =>
    rw [parent?_setParent_some (by simpa) (by simpa), hkeep]
    grind

/-- What holds once the slot is written, and is not lost with a link, holds of the whole change. -/
theorem place_induction {motive : Forest → Prop} (i : Nat)
    (written : motive (f.update owner (·.setSlot i (.child child))))
    (freed : ∀ g q, motive g → motive (g.setParent q none))
    (linked : ∀ g, motive g → motive (g.setParent child (some owner))) :
    motive (f.place owner i child) := by
  unfold place
  refine linked _ ?_
  split
  · split
    · exact written
    · exact freed _ _ written
  · exact written

theorem contents_place (hn : f.node? owner = some n) (i : Nat) (j : NodeId) :
    (f.place owner i child).contents j =
      if j = owner then (n.setSlot i (.child child)).contents else f.contents j := by
  refine place_induction (motive := fun g => g.contents j = _) i ?_ (fun g q h => ?_) fun g h => ?_
  · rw [contents_update, hn]
    rfl
  · rwa [contents_setParent]
  · rwa [contents_setParent]

theorem WellContained.parent?_of_slot (h : f.WellContained) (hn : f.node? owner = some n)
    (hs : n.slot i = .child c) : f.parent? c = some owner := by
  refine h.parent_of_held ?_
  rw [contents_of_node? hn]
  exact Node.mem_contents_of_slot (by rw [hs]; exact List.mem_singleton_self c)

/-- A detached child goes into the slot; what was there is free again. -/
theorem WellContained.place (h : f.WellContained) (hn : f.node? owner = some n)
    (hd : n.DeclaresChild i false) (hc : f.contains child) (hfree : f.parent? child = none)
    (hr : ¬ ReflTransGen f.Below owner child) : (f.place owner i child).WellContained := by
  obtain ⟨p, hp, hk, hm⟩ := id hd
  have ht := h.typed _ n hn
  have hown : ∀ x, n.contents.count x = if f.parent? x = some owner then 1 else 0 := fun x => by
    rw [← h.count_contents, contents_of_node? hn]
  have hslot : ∀ x, n.slot i = .child x → f.parent? x = some owner := fun x hs =>
    h.parent?_of_slot hn hs
  refine wellContained_of_count (fun q x => ?_) ?_ ?_
  · have hset := n.count_contents_setSlot i (.child child) x (ht.lt_length hp)
    rw [ht.count_single hd, hown] at hset
    have hone : (Slot.child child).nodes.count x = if child = x then 1 else 0 := by
      simp [Slot.nodes, List.count_singleton]
    rw [parent?_place hn hc, contents_place hn]
    by_cases hq : q = owner
    · rw [if_pos hq]
      grind
    · rw [if_neg hq, h.count_contents]
      grind
  · refine acyclic_attach (fun c q hb => ?_) h.acyclic hr
    unfold Below at hb ⊢
    rw [parent?_place hn hc] at hb
    grind
  · refine place_induction i (h.typed.update fun m hm' => ?_) (fun g q hg => hg.setParent q none)
      fun g hg => hg.setParent child _
    obtain rfl : n = m := Option.some.inj (hn.symm.trans hm')
    exact ht.setSlot hp ⟨hk, hm⟩

/-- The content of a collection with one more node. -/
def grown (n : Node) (i : Nat) (child : NodeId) : Slot :=
  match n.slot i with
  | .children cs => .children (cs ++ [child])
  | _ => .children [child]

theorem count_nodes_grown (ht : n.Typed) (hd : n.DeclaresChild i true) (child x : NodeId) :
    (grown n i child).nodes.count x = (n.slot i).nodes.count x + if child = x then 1 else 0 := by
  obtain ⟨p, hp, hk, hm⟩ := hd
  have hs := ht.slot hp
  unfold grown
  cases hsl : n.slot i <;> simp_all [Property.Admits, Slot.nodes, List.count_singleton]

theorem parent?_append (hn : f.node? owner = some n) (hc : f.contains child) (i : Nat)
    (j : NodeId) :
    (f.append owner i child).parent? j = if j = child then some owner else f.parent? j := by
  unfold append
  rw [parent?_setParent_some (by simpa) (by simpa using contains_of_node? hn)]
  congr 1
  exact parent?_update_of_parent fun _ => rfl

theorem contents_append (hn : f.node? owner = some n) (i : Nat) (j : NodeId) :
    (f.append owner i child).contents j =
      if j = owner then (n.setSlot i (grown n i child)).contents else f.contents j := by
  unfold append
  rw [contents_setParent, contents_update, hn]
  rfl

/-- A detached child goes to the end of the collection. -/
theorem WellContained.append (h : f.WellContained) (hn : f.node? owner = some n)
    (hd : n.DeclaresChild i true) (hc : f.contains child) (hfree : f.parent? child = none)
    (hr : ¬ ReflTransGen f.Below owner child) : (f.append owner i child).WellContained := by
  obtain ⟨p, hp, hk, hm⟩ := id hd
  have ht := h.typed _ n hn
  refine wellContained_of_count (fun q x => ?_) ?_ ?_
  · have hset := n.count_contents_setSlot i (grown n i child) x (ht.lt_length hp)
    have hown := h.count_contents owner x
    rw [contents_of_node? hn] at hown
    rw [count_nodes_grown ht hd, hown] at hset
    rw [parent?_append hn hc, contents_append hn]
    by_cases hq : q = owner
    · rw [if_pos hq]
      grind
    · rw [if_neg hq, h.count_contents]
      grind
  · refine acyclic_attach (fun c q hb => ?_) h.acyclic hr
    unfold Below at hb ⊢
    rw [parent?_append hn hc] at hb
    grind
  · refine Typed.setParent (h.typed.update fun m hm' => ?_) _ _
    obtain rfl : n = m := Option.some.inj (hn.symm.trans hm')
    refine ht.setSlot hp ?_
    split <;> exact ⟨hk, hm⟩

/-- A child may be attached when it has no other container and contains not the owner. -/
theorem attachable_eq_ok_iff {m : Node} :
    f.attachable owner n name child m = .ok () ↔
      (f.parent? child = none ∨ f.parent? child = some owner) ∧
        child ∉ f.lineage (f.size + 1) owner := by
  unfold attachable
  cases hc : f.parent? child with
  | none => split_ifs <;> simp_all
  | some q => split_ifs <;> simp_all

/-- What both ways to attach have in common: a slot of the owner is chosen, and the child is put
there if it may go there. -/
def attach (f : Forest) (owner : NodeId) (name : String) (child : NodeId)
    (choice : Node → Except ForestError Nat) (put : Nat → Forest) : Except ForestError Forest := do
  let n ← f.get owner
  let c ← f.get child
  let i ← choice n
  f.attachable owner n name child c
  return put i

theorem attach_eq_ok_iff {choice : Node → Except ForestError Nat} {put : Nat → Forest} :
    f.attach owner name child choice put = .ok g ↔
      ∃ n i, f.node? owner = some n ∧ f.contains child ∧ choice n = .ok i ∧
        (f.parent? child = none ∨ f.parent? child = some owner) ∧
        child ∉ f.lineage (f.size + 1) owner ∧ g = put i := by
  constructor
  · intro h
    simp only [attach, bind, Except.bind] at h
    split at h
    · cases h
    next n hn =>
    split at h
    · cases h
    next m hm =>
    split at h
    · cases h
    next i hi =>
    split at h
    · cases h
    next ha =>
    obtain ⟨hp, hl⟩ := attachable_eq_ok_iff.mp ha
    exact ⟨n, i, get_eq_ok hn, contains_of_node? (get_eq_ok hm), hi, hp, hl,
      (Except.ok.inj h).symm⟩
  · rintro ⟨n, i, hn, hc, hi, hp, hl, rfl⟩
    obtain ⟨m, hm⟩ := exists_node?_of_contains hc
    have ha : f.attachable owner n name child m = .ok () := attachable_eq_ok_iff.mpr ⟨hp, hl⟩
    simp [attach, get, hn, hm, hi, ha, bind, Except.bind, pure, Except.pure]

theorem setChild_eq_ok (h : f.setChild owner name child = .ok g) :
    ∃ n i, f.node? owner = some n ∧ f.contains child ∧ n.singleChild name = .ok i ∧
      (f.parent? child = none ∨ f.parent? child = some owner) ∧
      child ∉ f.lineage (f.size + 1) owner ∧ g = (f.detach child).2.place owner i child :=
  attach_eq_ok_iff.mp h

theorem addChild_eq_ok (h : f.addChild owner name child = .ok g) :
    ∃ n i, f.node? owner = some n ∧ f.contains child ∧ n.childCollection name = .ok i ∧
      (f.parent? child = none ∨ f.parent? child = some owner) ∧
      child ∉ f.lineage (f.size + 1) owner ∧ g = (f.detach child).2.append owner i child :=
  attach_eq_ok_iff.mp h

/-- A child that does not contain the owner does not do so when it is detached. -/
theorem WellContained.not_reach_detach (h : f.WellContained) (ho : f.contains owner)
    (hl : child ∉ f.lineage (f.size + 1) owner) :
    ¬ ReflTransGen (f.detach child).2.Below owner child := by
  intro hr
  refine hl ((mem_lineage_iff h.acyclic ho).mpr (ReflTransGen.mono (fun c p hb => ?_) _ _ hr))
  unfold Below at hb ⊢
  rw [parent?_detach] at hb
  split at hb
  · cases hb
  · exact hb

theorem WellContained.setChild (h : f.WellContained) (hg : f.setChild owner name child = .ok g) :
    g.WellContained := by
  obtain ⟨n, i, hn, hc, hi, -, hl, rfl⟩ := setChild_eq_ok hg
  obtain ⟨m, hm, hdesc⟩ := exists_node?_detach hn child
  have hd : m.DeclaresChild i false := by
    unfold Node.DeclaresChild
    rw [hdesc]
    exact Node.singleChild_eq_ok hi
  exact (h.detach child).place hm hd (by simpa) (by simp [parent?_detach])
    (h.not_reach_detach (contains_of_node? hn) hl)

theorem WellContained.addChild (h : f.WellContained) (hg : f.addChild owner name child = .ok g) :
    g.WellContained := by
  obtain ⟨n, i, hn, hc, hi, -, hl, rfl⟩ := addChild_eq_ok hg
  obtain ⟨m, hm, hdesc⟩ := exists_node?_detach hn child
  have hd : m.DeclaresChild i true := by
    unfold Node.DeclaresChild
    rw [hdesc]
    exact Node.childCollection_eq_ok hi
  exact (h.detach child).append hm hd (by simpa) (by simp [parent?_detach])
    (h.not_reach_detach (contains_of_node? hn) hl)

/-- The forest with an empty slot, where what the slot held points at nothing. -/
def cleared (f : Forest) (owner : NodeId) (n : Node) (i : Nat) : Forest :=
  match n.slot i with
  | .child c => (f.update owner (·.setSlot i .absent)).setParent c none
  | _ => f.update owner (·.setSlot i .absent)

/-- What holds once the slot is empty, and is not lost with a link, holds of the whole change. -/
theorem cleared_induction {motive : Forest → Prop} (n : Node) (i : Nat)
    (written : motive (f.update owner (·.setSlot i .absent)))
    (freed : ∀ g q, motive g → motive (g.setParent q none)) : motive (f.cleared owner n i) := by
  unfold cleared
  split
  · exact freed _ _ written
  · exact written

theorem clearChild_eq_ok {held : Option NodeId} (h : f.clearChild owner name = .ok (held, g)) :
    ∃ n i, f.node? owner = some n ∧ n.singleChild name = .ok i ∧ g = f.cleared owner n i := by
  simp only [clearChild, bind, Except.bind] at h
  split at h
  · cases h
  next n hn =>
  split at h
  · cases h
  next i hi =>
  refine ⟨n, i, get_eq_ok hn, hi, ?_⟩
  unfold cleared
  cases hs : n.slot i with
  | _ => simp_all [pure, Except.pure]

theorem parent?_cleared (n : Node) (i : Nat) (j : NodeId) :
    (f.cleared owner n i).parent? j = if n.slot i = .child j then none else f.parent? j := by
  have hkeep : (f.update owner (·.setSlot i .absent)).parent? j = f.parent? j :=
    parent?_update_of_parent fun _ => rfl
  unfold cleared
  split
  · next c hc =>
    rw [parent?_setParent_none, hkeep, hc]
    grind
  · next hc => rw [hkeep, if_neg (hc j)]

theorem contents_cleared (hn : f.node? owner = some n) (i : Nat) (j : NodeId) :
    (f.cleared owner n i).contents j =
      if j = owner then (n.setSlot i .absent).contents else f.contents j := by
  refine cleared_induction (motive := fun g => g.contents j = _) n i ?_ fun g q h => ?_
  · rw [contents_update, hn]
    rfl
  · rwa [contents_setParent]

theorem WellContained.cleared (h : f.WellContained) (hn : f.node? owner = some n)
    (hd : n.DeclaresChild i false) : (f.cleared owner n i).WellContained := by
  obtain ⟨p, hp, hk, hm⟩ := id hd
  have ht := h.typed _ n hn
  refine wellContained_of_count (fun q x => ?_) (acyclic_mono (fun c q hb => ?_) h.acyclic) ?_
  · have hset := n.count_contents_setSlot i .absent x (ht.lt_length hp)
    have hown := h.count_contents owner x
    rw [contents_of_node? hn] at hown
    rw [ht.count_single hd, hown, show Slot.absent.nodes = [] from rfl, List.count_nil] at hset
    have hslot : n.slot i = .child x → f.parent? x = some owner := h.parent?_of_slot hn
    rw [parent?_cleared, contents_cleared hn]
    by_cases hq : q = owner
    · rw [if_pos hq]
      grind
    · rw [if_neg hq, h.count_contents]
      grind
  · unfold Below at hb ⊢
    rw [parent?_cleared] at hb
    split at hb
    · cases hb
    · exact hb
  · refine cleared_induction n i (h.typed.update fun m hm' => ?_) fun g q hg => hg.setParent q none
    obtain rfl : n = m := Option.some.inj (hn.symm.trans hm')
    exact ht.setSlot hp trivial

end Forest

end Arbor
