import Arbor.Forest.Passes
import Arbor.Proofs.Forest.Traversals
import Arbor.Proofs.Text.Advance

/-!
Searches by position. Where every node lies inside the node that contains it, a range that contains
the place of a node shares that place with all nodes above, so a search may pass over what does not
meet the range and still finds, in the same order, what the filter of the whole walk finds.
-/
namespace Arbor
open Relation

namespace Point

protected theorem le_total (p q : Point) : p ≤ q ∨ q ≤ p := by
  simp only [le_def]
  omega

end Point

namespace Position
variable {a b c range : Position}

theorem contains_iff : a.contains b ↔ a.start ≤ b.start ∧ b.stop ≤ a.stop := by
  simp [contains]

theorem contains_trans (hab : a.contains b) (hbc : b.contains c) : a.contains c := by
  rw [contains_iff] at *
  exact ⟨Point.le_trans hab.1 hbc.1, Point.le_trans hbc.2 hab.2⟩

theorem start_le_stop_of_isValid (h : a.isValid) : a.start ≤ a.stop := by
  simp only [isValid, Bool.and_eq_true, decide_eq_true_eq] at h
  exact h.2

/-- Two ranges around one that is in order overlap: the later of their starts lies in both. -/
theorem overlaps_of_contains (hrange : range.contains b) (ha : a.contains b) (hb : b.isValid) :
    range.overlaps a := by
  rw [contains_iff] at hrange ha
  have horder := start_le_stop_of_isValid hb
  simp only [overlaps, covers, Bool.or_eq_true, Bool.and_eq_true, decide_eq_true_eq]
  rcases Point.le_total a.start range.start with h | h
  · exact .inl (.inl (.inl ⟨h, Point.le_trans hrange.1 (Point.le_trans horder ha.2)⟩))
  · exact .inl (.inr ⟨h, Point.le_trans ha.1 (Point.le_trans horder hrange.2)⟩)

end Position

namespace Forest
variable {f : Forest} {root outer inner id c m : NodeId} {range : Position}

/-- The place of `inner` is a valid one and lies in that of `outer`. -/
def Encloses (f : Forest) (outer inner : NodeId) : Prop :=
  ∃ a b, f.position outer = some a ∧ f.position inner = some b ∧ a.contains b ∧ b.isValid

theorem Encloses.trans (h₁ : f.Encloses outer inner) (h₂ : f.Encloses inner m) :
    f.Encloses outer m := by
  obtain ⟨a, b, ha, hb, hab, -⟩ := h₁
  obtain ⟨b', c, hb', hc, hbc, hvalid⟩ := h₂
  obtain rfl := Option.some.inj (hb.symm.trans hb')
  exact ⟨a, c, ha, hc, Position.contains_trans hab hbc, hvalid⟩

/-- A range that an enclosing node does not meet does not contain the node. -/
theorem Encloses.not_inside (h : f.Encloses outer inner)
    (hmiss : range.overlapsSome (f.position outer) = false) :
    range.containsSome (f.position inner) = false := by
  obtain ⟨a, b, ha, hb, hab, hvalid⟩ := h
  rw [ha] at hmiss
  rw [hb]
  refine Bool.eq_false_iff.mpr fun hinside => ?_
  have hmeets : range.overlaps a := Position.overlaps_of_contains hinside hab hvalid
  simp [Position.overlapsSome, hmeets] at hmiss

/-- The check passes a node that has a valid place, inside that of its parent if it has one. -/
theorem positionProblem_eq_none_iff :
    f.positionProblem id = none ↔ ∃ a, f.position id = some a ∧ a.isValid ∧
      ∀ b, (f.parent? id).bind f.position = some b → b.contains a := by
  unfold positionProblem
  cases ha : f.position id with
  | none => simp
  | some a =>
    cases hvalid : a.isValid with
    | false => simp [hvalid]
    | true => cases (f.parent? id).bind f.position <;> simp [hvalid]

section Nested
variable (hlinks : ∀ p, ReflTransGen f.Holds root p → ∀ c, f.Holds p c → f.parent? c = some p)
  (hplaces : ∀ p, ReflTransGen f.Holds root p → f.positionProblem p = none)

include hplaces in
theorem exists_position (hid : ReflTransGen f.Holds root id) :
    ∃ a, f.position id = some a ∧ a.isValid := by
  obtain ⟨a, ha, hvalid, -⟩ := positionProblem_eq_none_iff.mp (hplaces id hid)
  exact ⟨a, ha, hvalid⟩

include hlinks hplaces in
theorem encloses_of_holds (hid : ReflTransGen f.Holds root id) (hc : f.Holds id c) :
    f.Encloses id c := by
  obtain ⟨a, ha, -⟩ := exists_position hplaces hid
  obtain ⟨b, hb, hvalid, hinside⟩ := positionProblem_eq_none_iff.mp (hplaces c (hid.tail hc))
  have habove : (f.parent? c).bind f.position = some a := by rw [hlinks id hid c hc]; exact ha
  exact ⟨a, b, ha, hb, hinside a habove, hvalid⟩

include hlinks hplaces in
/-- A node of the tree encloses everything below it. -/
theorem encloses_of_reach (hid : ReflTransGen f.Holds root id) (hm : ReflTransGen f.Holds id m) :
    f.Encloses id m := by
  induction hm with
  | refl =>
    obtain ⟨a, ha, hvalid⟩ := exists_position hplaces hid
    exact ⟨a, a, ha, ha, Position.contains_iff.mpr ⟨Point.le_refl _, Point.le_refl _⟩, hvalid⟩
  | tail hm hc ih => exact ih.trans (encloses_of_holds hlinks hplaces (hid.trans hm) hc)

include hlinks hplaces in
/-- With enough steps the search finds what lies in the range at and under the nodes on its stack:
a node that does not meet the range has nothing below that lies in it. -/
theorem withinFrom_eq (hroot : f.Grounded root) {steps : Nat} {stack : List NodeId}
    (hstack : ∀ id ∈ stack, ReflTransGen f.Holds root id)
    (hsteps : (stack.flatMap f.preorder).length ≤ steps) :
    f.withinFrom range steps stack =
      (stack.flatMap f.preorder).filter fun id => range.containsSome (f.position id) := by
  induction steps generalizing stack with
  | zero => rw [List.eq_nil_of_length_eq_zero (Nat.le_zero.mp hsteps)]; rfl
  | succ steps ih =>
    cases stack with
    | nil => rfl
    | cons id stack =>
      have hid := hstack id List.mem_cons_self
      have hgrounded := hroot.of_reach hid
      have hrest : ∀ c ∈ stack, ReflTransGen f.Holds root c := fun c hc =>
        hstack c (List.mem_cons_of_mem _ hc)
      unfold withinFrom
      dsimp only
      by_cases hmeets : range.overlapsSome (f.position id)
      · rw [if_pos hmeets]
        rw [List.flatMap_cons, hgrounded.preorder_eq, List.cons_append, ← List.flatMap_append]
          at hsteps ⊢
        rw [ih ?_ (by simpa using hsteps), List.filter_cons]
        intro c hc
        rcases List.mem_append.mp hc with hc | hc
        · exact hid.tail hc
        · exact hrest c hc
      · have hnone : (f.preorder id).filter (fun m => range.containsSome (f.position m)) = [] := by
          rw [List.filter_eq_nil_iff]
          intro m hm
          have hbelow := encloses_of_reach hlinks hplaces hid (hgrounded.mem_preorder_iff.mp hm)
          exact Bool.eq_false_iff.mp (hbelow.not_inside (Bool.eq_false_iff.mpr hmeets))
        rw [if_neg hmeets, List.flatMap_cons, List.filter_append, hnone, List.nil_append]
        refine ih hrest ?_
        rw [List.flatMap_cons, List.length_append, hgrounded.preorder_eq, List.length_cons] at hsteps
        omega

end Nested

/-- In a finite tree whose links agree with what its nodes contain and whose places are all right,
a search finds the same nodes in the same order whether it passes over subtrees or not. -/
theorem searchByPosition_selfContained (hroot : f.Grounded root)
    (hlinks : ∀ p ∈ f.walk root, ∀ c ∈ f.children p, f.parent? c = some p)
    (hplaces : f.invalidPositions root = []) (range : Position) :
    f.searchByPosition root range true = f.searchByPosition root range false ∧
      f.findByPosition root range true = f.findByPosition root range false := by
  have hmem : ∀ p, ReflTransGen f.Holds root p → p ∈ f.walk root := fun p hp => by
    rw [hroot.walk_eq]
    exact hroot.mem_preorder_iff.mpr hp
  have hsound : ∀ p, ReflTransGen f.Holds root p → f.positionProblem p = none := fun p hp => by
    simpa using List.filterMap_eq_nil_iff.mp hplaces p (hmem p hp)
  have hlength := f.length_preorder root
  have hsame : f.searchByPosition root range true = f.searchByPosition root range false := by
    have hfound : f.withinFrom range (f.weight root + 1) [root] =
        ([root].flatMap f.preorder).filter fun id => range.containsSome (f.position id) :=
      withinFrom_eq (fun p hp => hlinks p (hmem p hp)) hsound hroot (by simpa using .refl)
        (by simp [hlength])
    rw [List.flatMap_singleton, ← hroot.walk_eq] at hfound
    exact hfound
  exact ⟨hsame, by rw [findByPosition, findByPosition, hsame]⟩

section Sample

def blockType : Descriptor :=
  ⟨⟨0, ⟨"test", "Block"⟩, [.children "body" "test.Block"], .dynamic "block"⟩, []⟩

/-- A block with two blocks in it, and one more block in each of these. -/
def blocks : Forest :=
  run {} [.create blockType, .create blockType, .create blockType, .create blockType,
    .create blockType,
    .setPosition 0 (some ⟨⟨1, 0⟩, ⟨10, 0⟩⟩), .setPosition 1 (some ⟨⟨1, 0⟩, ⟨3, 0⟩⟩),
    .setPosition 2 (some ⟨⟨2, 0⟩, ⟨2, 5⟩⟩), .setPosition 3 (some ⟨⟨3, 0⟩, ⟨9, 0⟩⟩),
    .setPosition 4 (some ⟨⟨5, 0⟩, ⟨5, 8⟩⟩),
    .addChild 1 "body" 2, .addChild 3 "body" 4, .addChild 0 "body" 1, .addChild 0 "body" 3]

/-- The range of the second inner block, which touches the first one at its end. -/
def innerRange : Position := ⟨⟨3, 0⟩, ⟨9, 0⟩⟩

theorem searchByPosition_selfContained_blocks :
    blocks.Grounded 0 ∧
      (∀ p ∈ blocks.walk 0, ∀ c ∈ blocks.children p, blocks.parent? c = some p) ∧
      blocks.invalidPositions 0 = [] ∧
      blocks.searchByPosition 0 innerRange true = blocks.searchByPosition 0 innerRange false ∧
      blocks.findByPosition 0 innerRange true = blocks.findByPosition 0 innerRange false := by
  have hgrounded : blocks.Grounded 0 := (sound_empty.run _).toWellContained.grounded 0
  have hlinks : ∀ p ∈ blocks.walk 0, ∀ c ∈ blocks.children p, blocks.parent? c = some p := by
    decide
  have hplaces : blocks.invalidPositions 0 = [] := by decide
  exact ⟨hgrounded, hlinks, hplaces,
    searchByPosition_selfContained hgrounded hlinks hplaces innerRange⟩

example : blocks.searchByPosition 0 innerRange true = [3, 4] := by decide

end Sample

end Forest

end Arbor
