import Arbor.Proofs.Forest.Preorder
import Arbor.Proofs.Forest.Runs

/-!
Walks down and walks up. Where containment is whole, a node holds exactly the nodes whose links lead
to it, so both traversals follow one relation in opposite directions; links that never lead back
make both of them end.
-/
namespace Arbor
open Relation

theorem Cursor.Visits.congr {f : Forest} {c c' : Cursor} {ids : List NodeId} (h : c'.Visits f ids)
    (hnext : c.next f = c'.next f) : c.Visits f ids := by
  cases h with
  | done hdone hend => exact .done (hnext.trans hdone) hend
  | step hstep hrest => exact .step (hnext.trans hstep) hrest

namespace Forest
variable {f : Forest} {id c m n p : NodeId}

section Down

/-- A cursor that leaves its first node out goes on with the children. -/
theorem Grounded.next_descendants (h : f.Grounded id) :
    (Cursor.start f id .descendantsPreorder).next f =
      Cursor.next f ⟨.preorder (f.children id), some id⟩ := by
  have hstart : (Cursor.start f id .descendantsPreorder).next f =
      Cursor.nextWithin f f.size ⟨.preorder (f.children id), some id⟩ := by
    simp [Cursor.start, Cursor.next, Cursor.nextWithin, Pending.next]
  rw [hstart]
  cases hchildren : f.children id with
  | nil => cases f.size <;> rfl
  | cons c rest =>
    have hc : f.Holds id c := by simp [Holds, hchildren]
    have hne : id ≠ c := by
      rintro rfl
      exact h.not_loop .refl (.single hc)
    obtain ⟨size, hsize⟩ :=
      Nat.exists_eq_add_one_of_ne_zero (Nat.ne_zero_of_lt (lt_size_of_contains (contains_of_holds hc)))
    simp [Cursor.next, Cursor.nextWithin, Pending.next, hsize, hne]

theorem Grounded.visits_descendants (h : f.Grounded id) :
    (Cursor.start f id .descendantsPreorder).Visits f ((f.children id).flatMap f.preorder) := by
  refine Cursor.Visits.congr (visits_stack (fun c hc => h.of_reach (.single hc)) ?_)
    h.next_descendants
  rintro o ⟨⟩ ho
  exact h.not_loop .refl (h.mem_flatMap_preorder_iff.mp ho)

theorem Grounded.descendants_eq (h : f.Grounded id) :
    f.traverse id .descendantsPreorder = (f.children id).flatMap f.preorder := by
  refine h.visits_descendants.run_eq ?_
  have hlength := f.length_preorder id
  rw [h.preorder_eq, List.length_cons] at hlength
  omega

end Down

section Up

/-- A lineage that was not cut short is what a cursor finds on its way up. -/
theorem visits_lineage {fuel : Nat} (hshort : (f.lineage fuel p).length < fuel) :
    Cursor.Visits f ⟨.ancestors (some p), none⟩ (f.lineage fuel p) := by
  induction fuel generalizing p with
  | zero => simp at hshort
  | succ fuel ih =>
    rw [lineage] at hshort ⊢
    refine .step rfl ?_
    cases hp : f.parent? p with
    | none => exact .done rfl rfl
    | some q => exact ih (by simpa [hp] using hshort)

/-- The links up from a node are followed to their end. -/
theorem WellContained.exists_visits_ancestors (h : f.WellContained) (m : NodeId) :
    ∃ ids, (Cursor.start f m .ancestors).Visits f ids ∧ ids.length ≤ f.size ∧
      ∀ n, n ∈ ids ↔ TransGen f.Below m n := by
  cases hp : f.parent? m with
  | none =>
    refine ⟨[], ?_, Nat.zero_le _, fun n => ⟨by simp, fun hn => ?_⟩⟩
    · rw [Cursor.start, hp]
      exact .done rfl rfl
    · obtain ⟨q, hq, -⟩ := TransGen.head'_iff.mp hn
      rw [Below, hp] at hq
      cases hq
  | some p =>
    have hlive := (parent?_eq_some.mp hp).2
    have hlength := length_lineage_le h.acyclic hlive (f.size + 1)
    refine ⟨f.lineage (f.size + 1) p, ?_, hlength, fun n => ?_⟩
    · rw [Cursor.start, hp]
      exact visits_lineage (Nat.lt_succ_of_le hlength)
    · rw [mem_lineage_iff h.acyclic hlive, TransGen.head'_iff]
      constructor
      · exact fun hn => ⟨p, hp, hn⟩
      · rintro ⟨q, hq, hn⟩
        obtain rfl : p = q := Option.some.inj (hp.symm.trans hq)
        exact hn

theorem WellContained.visits_ancestors (h : f.WellContained) (m : NodeId) :
    (Cursor.start f m .ancestors).Visits f (f.traverse m .ancestors) ∧
      ∀ n, n ∈ f.traverse m .ancestors ↔ TransGen f.Below m n := by
  obtain ⟨ids, hvisits, hlength, hmem⟩ := h.exists_visits_ancestors m
  have hall : f.traverse m .ancestors = ids := hvisits.run_eq (by omega)
  rw [hall]
  exact ⟨hvisits, hmem⟩

end Up

section Containment

theorem WellContained.children_eq (h : f.WellContained) (p : NodeId) :
    f.children p = f.contents p := by
  unfold children contents
  cases hn : f.node? p with
  | none => rfl
  | some n => exact (h.typed p n hn).children_eq

/-- What holds a node is what its link leads to. -/
theorem WellContained.holds_iff (h : f.WellContained) : f.Holds p c ↔ f.Below c p := by
  unfold Holds Below
  rw [h.children_eq]
  refine ⟨h.parent_of_held, fun hp => ?_⟩
  exact List.count_pos_iff.mp (by rw [h.held_once hp]; exact Nat.one_pos)

theorem WellContained.heldOnce (h : f.WellContained) : f.HeldOnce where
  nodup p := List.nodup_iff_count_le_one.mpr fun c => by
    by_cases hc : c ∈ f.children p
    · have hp := h.holds_iff.mp hc
      exact Nat.le_of_eq (h.children_eq p ▸ h.held_once hp)
    · rw [List.count_eq_zero_of_not_mem hc]
      exact Nat.zero_le 1
  sole hp hq := Option.some.inj ((h.holds_iff.mp hp).symm.trans (h.holds_iff.mp hq))

theorem WellContained.transGen_holds_iff (h : f.WellContained) :
    TransGen f.Holds n m ↔ TransGen f.Below m n := by
  have hflip : f.Holds = Function.swap f.Below := by
    funext p c
    exact propext h.holds_iff
  rw [hflip, transGen_swap]

theorem WellContained.grounded (h : f.WellContained) (id : NodeId) : f.Grounded id :=
  (shallow_of_no_loop fun c _ hloop => h.acyclic c (h.transGen_holds_iff.mp hloop)).grounded

end Containment

/-- After any edits of the empty forest, walks down and walks up come to their end, a walk down
visits no node twice, and a node comes up below another one exactly if that one comes up above it. -/
theorem mem_descendants_iff_mem_ancestors (edits : List Edit) (n m : NodeId) :
    let f := run {} edits
    (Cursor.start f n .preorder).Visits f (f.walk n) ∧
      (Cursor.start f n .descendantsPreorder).Visits f (f.traverse n .descendantsPreorder) ∧
      (Cursor.start f m .ancestors).Visits f (f.traverse m .ancestors) ∧
      (f.walk n).Nodup ∧
      (m ∈ f.traverse n .descendantsPreorder ↔ n ∈ f.traverse m .ancestors) := by
  intro f
  have h : f.WellContained := (sound_empty.run edits).toWellContained
  have hn := h.grounded n
  obtain ⟨hup, hmem⟩ := h.visits_ancestors m
  refine ⟨?_, ?_, hup, ?_, ?_⟩
  · rw [hn.walk_eq]
    exact hn.visits_preorder
  · rw [hn.descendants_eq]
    exact hn.visits_descendants
  · rw [hn.walk_eq]
    exact h.heldOnce.nodup_preorder hn
  · rw [hn.descendants_eq, hn.mem_flatMap_preorder_iff, hmem, h.transGen_holds_iff]

end Forest

end Arbor
