import Arbor.Proofs.Forest.Repairs
import Arbor.Proofs.Transform.Mirror

/-!
Mirrored trees after the mapping. Every node already points back at the node that contains it, so
setting these links again changes nothing; and as nothing is pinned, the position of a node is that
of its rule node.
-/
namespace Arbor

theorem exists_of_forall₂ {α β : Type} {Q : α → β → Prop} {as : List α} {bs : List β}
    (h : List.Forall₂ Q as bs) {a : α} (ha : a ∈ as) : ∃ b ∈ bs, Q a b := by
  induction h with
  | nil => simp at ha
  | @cons a' b as bs hab _ ih =>
    rcases List.mem_cons.mp ha with rfl | ha
    · exact ⟨b, by simp, hab⟩
    · obtain ⟨c, hc, hac⟩ := ih ha
      exact ⟨c, by simp [hc], hac⟩

namespace Forest
open ParseTree
variable {R : ParseNode → Descriptor → List Slot → Prop} {f : Forest} {parent : Option Nat}
  {id : Nat} {n : ParseNode} {m : Node}

theorem Mirrors.children_eq (h : f.Mirrors R parent id n) :
    f.children id = placesFrom (id + 1) n.childNodes := by
  obtain ⟨hnode, -, hchildren, -⟩ := h
  simp [children, hnode, hchildren]

theorem Mirrors.contains (h : f.Mirrors R parent id n) : f.contains id := by
  obtain ⟨hnode, -, -, -⟩ := h
  simp [Forest.contains, hnode]

theorem mem_placesFrom_iff {start place : Nat} {cs : List ParseNode} :
    place ∈ placesFrom start cs ↔ ∃ c, (c, place) ∈ cs.zip (placesFrom start cs) := by
  induction cs generalizing start with
  | nil => simp [placesFrom]
  | cons c cs ih =>
    simp only [placesFrom, List.mem_cons, List.zip_cons_cons, Prod.mk.injEq, ih]
    constructor
    · rintro (rfl | ⟨d, hd⟩)
      · exact ⟨c, .inl ⟨rfl, rfl⟩⟩
      · exact ⟨d, .inr hd⟩
    · rintro ⟨d, ⟨-, rfl⟩ | hd⟩
      · exact .inl rfl
      · exact .inr ⟨d, hd⟩

theorem Mirrors.adoptChildren_eq (h : f.Mirrors R parent id n) : f.adoptChildren id = f := by
  refine Forest.adoptChildren_eq fun place hplace m hm => ?_
  rw [h.children_eq] at hplace
  obtain ⟨c, hc⟩ := mem_placesFrom_iff.mp hplace
  obtain ⟨-, -, -, hbelow⟩ := h
  obtain ⟨hnode, hplaced, -, -⟩ := hbelow c place hc
  obtain rfl := Option.some.inj (hnode.symm.trans hm)
  exact hplaced.parent

/-- The cells of a mirrored tree stand for its rule nodes. -/
theorem Mirrors.forall₂_walk (h : f.Mirrors R parent id n) (hsize : id + n.nodeCount ≤ f.size) :
    List.Forall₂ (fun j c => ∃ above, f.Mirrors R above j c) (f.walk id) n.preorder := by
  rw [h.walk_eq hsize]
  have hall := h.forall₂_range' (P := fun _ _ _ => True) trivial fun _ _ _ _ _ _ _ _ => trivial
  exact hall.imp fun j c ⟨above, hc, _⟩ => ⟨above, hc⟩

theorem Mirrors.assignParents_eq (h : f.Mirrors R parent id n)
    (hsize : id + n.nodeCount ≤ f.size) : f.assignParents id = f := by
  refine foldl_adoptChildren_eq_self fun j hj => ?_
  obtain ⟨c, -, above, hc⟩ := exists_of_forall₂ (h.forall₂_walk hsize) hj
  exact hc.adoptChildren_eq

/-- A node without a position of its own has that of its rule node. -/
theorem Mirrors.position_eq (h : f.Mirrors R parent id n) : f.position id = some n.position := by
  obtain ⟨hnode, hm, -, -⟩ := h
  simp [position, positionWithin, hnode, hm.pin, hm.origin]

theorem Mirrors.text_eq (h : f.Mirrors R parent id n) : f.text id = some n.text := by
  obtain ⟨hnode, hm, -, -⟩ := h
  simp [text, textWithin, hnode, hm.origin]

theorem Mirrors.parent?_eq (h : f.Mirrors R parent id n) (hparent : ∀ q ∈ parent, f.contains q) :
    f.parent? id = parent := by
  obtain ⟨hnode, hm, -, -⟩ := h
  rw [parent?, hnode, Option.bind_some, hm.parent]
  cases parent with
  | none => rfl
  | some q => simp [hparent q rfl]

end Forest

end Arbor
