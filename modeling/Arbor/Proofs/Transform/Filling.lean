import Arbor.Proofs.Transform.Mirror
import Arbor.Proofs.Transform.Outcome

/-!
Filling the child properties of a new node. The nodes for the parts of a rule node are made one
behind the other, right behind the node that is to contain them, and each of them points at it
from the start. They go into its slots in the same order, so that what the node contains is always
a list of cells in their order.
-/
namespace Arbor

namespace Node
variable {n : Node} {i : Nat} {s : Slot}

theorem bare_of_isChild {p : Property} (hk : p.isChild) (hs : p.Admits s) : s.bare = .absent := by
  have hkind : p.kind = .child := by simpa [Property.isChild] using hk
  cases s <;> simp_all [Property.Admits, Slot.bare]

/-- What goes into a child slot is no part of the data. -/
theorem StandsFor.setSlot {R : ParseNode → Descriptor → List Slot → Prop} {parent : Option Nat}
    {t : ParseNode} {p : Property} (h : n.StandsFor R parent t)
    (hp : n.descriptor.properties[i]? = some p) (hk : p.isChild) (hs : p.Admits s) :
    (n.setSlot i s).StandsFor R parent t where
  origin := h.origin
  parent := h.parent
  pin := h.pin
  typed := h.typed.setSlot hp hs
  names := h.names
  look := by
    have hsame : s.bare = (n.slot i).bare := by
      rw [bare_of_isChild hk hs, bare_of_isChild hk (h.typed.slot hp)]
    rw [data_setSlot hsame]
    exact h.look

end Node

namespace Forest
open ParseTree

/-- A new node `m`, made for the rule node `n` when the forest was `old`: of the parts `made` for
it, which stand behind it, it contains those of `held`. The nodes behind it are as `Q` wants
them. -/
structure Filling (R : ParseNode → Descriptor → List Slot → Prop) (Q : Node → Prop) (old : Forest)
    (n : ParseNode) (held made : List ParseNode) (f : Forest) (m : Node) : Prop where
  node : f.node? old.size = some m
  stands : m.StandsFor R none n
  contents : m.contents = placesFrom (old.size + 1) held
  size : f.size = old.size + 1 + countOf made
  below : f.MirrorsAll R (some old.size) (old.size + 1) made
  older {j : Nat} : j < old.size → f.node? j = old.node? j
  bare : ∀ s ∈ m.slots, s.nodes = [] → s.bare = s
  behind {j : Nat} {k : Node} : old.size < j → f.node? j = some k → Q k

section Attach
variable {R : ParseNode → Descriptor → List Slot → Prop} {Q : Node → Prop} {old f g : Forest}
  {n c : ParseNode}
  {held made rest : List ParseNode} {m : Node} {i : Nat} {p : Property} {s : Slot}

/-- The next part goes into a slot. -/
theorem Filling.revised (h : old.Filling R Q n held made f m)
    (hg : f.Revised g old.size (m.setSlot i s)) (hp : m.descriptor.properties[i]? = some p)
    (hk : p.isChild) (hs : p.Admits s)
    (hnodes : s.nodes = (m.slot i).nodes ++ [old.size + 1 + countOf held])
    (hempty : ∀ j, i < j → (m.slot j).nodes = []) :
    old.Filling R Q n (held ++ [c]) made g (m.setSlot i s) where
  node := hg.self
  stands := h.stands.setSlot hp hk hs
  contents := by
    rw [Node.contents_setSlot_append (h.stands.typed.lt_length hp) hnodes hempty, h.contents,
      placesFrom_append]
    rfl
  size := by rw [hg.size, h.size]
  below := h.below.congr fun j hj _ => hg.other (Nat.ne_of_gt hj)
  older hj := by rw [hg.other (Nat.ne_of_lt hj), h.older hj]
  bare u hu hempty := by
    rcases List.mem_or_eq_of_mem_set hu with hu | rfl
    · exact h.bare u hu hempty
    · simp [hnodes] at hempty
  behind hj hk := h.behind hj (by rwa [← hg.other (Nat.ne_of_gt hj)])

/-- The next part points at the node and is not in it yet. -/
theorem Filling.next (h : old.Filling R Q n held (held ++ c :: rest) f m) :
    old.size + 1 + countOf held ∉ m.contents ∧
      ∃ cn, f.node? (old.size + 1 + countOf held) = some cn ∧ cn.parent = some old.size := by
  constructor
  · intro hmem
    rw [h.contents] at hmem
    exact Nat.lt_irrefl _ (lt_of_mem_placesFrom hmem)
  · have hbelow := (mirrorsAll_append.mp h.below).2
    obtain ⟨hnode, hm, -, -⟩ := (mirrorsAll_cons.mp hbelow).1
    exact ⟨_, hnode, hm.parent⟩

theorem Filling.setChild (h : old.Filling R Q n held (held ++ c :: rest) f m)
    (hp : m.descriptor.properties[i]? = some p) (hk : p.isChild) (hm : p.multiple = false)
    (hempty : ∀ j, i ≤ j → (m.slot j).nodes = []) :
    ∃ g s, f.setChild old.size p.name (old.size + 1 + countOf held) = .ok g ∧
      s.nodes = [old.size + 1 + countOf held] ∧
      old.Filling R Q n (held ++ [c]) (held ++ c :: rest) g (m.setSlot i s) := by
  obtain ⟨hnew, cn, hcn, hlink⟩ := h.next
  have hslot := Node.singleChild_of_getElem? h.stands.typed h.stands.names hp hk hm
  have hfree := hempty i (Nat.le_refl i)
  obtain ⟨g, hset, hg⟩ := setChild_of_made h.node h.stands.parent hcn hlink hnew hslot hfree
  refine ⟨g, _, hset, rfl, h.revised hg hp hk ?_ ?_ fun j hj => hempty j (Nat.le_of_lt hj)⟩
  · exact ⟨by simpa [Property.isChild] using hk, hm⟩
  · rw [hfree]
    rfl

theorem Filling.addChild (h : old.Filling R Q n held (held ++ c :: rest) f m)
    (hp : m.descriptor.properties[i]? = some p) (hk : p.isChild) (hm : p.multiple)
    (hempty : ∀ j, i < j → (m.slot j).nodes = []) :
    ∃ g s, f.addChild old.size p.name (old.size + 1 + countOf held) = .ok g ∧
      s.nodes = (m.slot i).nodes ++ [old.size + 1 + countOf held] ∧
      old.Filling R Q n (held ++ [c]) (held ++ c :: rest) g (m.setSlot i s) := by
  obtain ⟨hnew, cn, hcn, hlink⟩ := h.next
  have hslot := Node.childCollection_of_getElem? h.stands.typed h.stands.names hp hk hm
  obtain ⟨g, hadd, hg⟩ := addChild_of_made h.node h.stands.parent hcn hlink hnew hslot
  have hkind : p.kind = .child := by simpa [Property.isChild] using hk
  have hadmits := h.stands.typed.slot hp
  have hnodes : (grown m i (old.size + 1 + countOf held)).nodes =
      (m.slot i).nodes ++ [old.size + 1 + countOf held] := by
    unfold grown
    cases hs : m.slot i <;> simp_all [Property.Admits, Slot.nodes]
  refine ⟨g, _, hadd, hnodes, h.revised hg hp hk ?_ hnodes hempty⟩
  unfold grown
  split <;> exact ⟨hkind, hm⟩

/-- All parts that are left go into a collection, one after the other. -/
theorem Filling.addChildren {w : Workshop} {cs : List ParseNode}
    (h : old.Filling R Q n held (held ++ cs) w.world.forest m)
    (hp : m.descriptor.properties[i]? = some p) (hk : p.isChild) (hm : p.multiple)
    (hempty : ∀ j, i < j → (m.slot j).nodes = []) :
    ∃ g m', (Work.addChildren old.size p.name
        (placesFrom (old.size + 1 + countOf held) cs)).outcome w =
          (.ok (), w.withWorld w.world.registry g) ∧
      old.Filling R Q n (held ++ cs) (held ++ cs) g m' ∧ m'.descriptor = m.descriptor ∧
      (∀ j, i ≠ j → m'.slot j = m.slot j) ∧
      (m'.slot i).nodes.length = (m.slot i).nodes.length + cs.length := by
  induction cs generalizing held m w with
  | nil =>
    refine ⟨w.world.forest, m, rfl, ?_, rfl, fun j _ => rfl, rfl⟩
    simpa using h
  | cons c cs ih =>
    obtain ⟨g, s, hadd, hnodes, hg⟩ := h.addChild hp hk hm hempty
    rw [List.append_cons held c cs] at hg
    obtain ⟨g', m', hrest, hg', hd, hother, hcount⟩ := @ih (held ++ [c]) (m.setSlot i s)
      (w.withWorld w.world.registry g) hg hp fun j hj => by
        rw [Node.slot_setSlot_of_ne (Nat.ne_of_lt hj)]
        exact hempty j hj
    have hother' : ∀ j, i ≠ j → m'.slot j = m.slot j := fun j hj =>
      (hother j hj).trans (Node.slot_setSlot_of_ne hj)
    rw [Node.slot_setSlot (h.stands.typed.lt_length hp), hnodes, List.length_append,
      List.length_singleton, Nat.add_assoc, Nat.add_comm 1] at hcount
    refine ⟨g', m', ?_, by rwa [List.append_cons held c cs], hd, hother', hcount⟩
    have hplace : old.size + 1 + countOf held + c.nodeCount =
        old.size + 1 + countOf (held ++ [c]) := by
      simp [countOf, Nat.add_assoc]
    rw [placesFrom, Work.addChildren, Work.outcome_bind_ok (Work.outcome_change hadd), hplace,
      hrest]
    rfl

end Attach

end Forest

end Arbor
