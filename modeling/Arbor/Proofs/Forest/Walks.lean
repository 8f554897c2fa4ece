import Arbor.Forest.Walk

/-!
Walks over trees. A walk takes nodes off a stack and puts what they contain in their place, so it
depends on a forest through what each node contains and through the number of cells alone.
-/
namespace Arbor
namespace Forest
variable {f g : Forest}

theorem run_preorder_cons (f : Forest) (id steps : Nat) (stack : List Nat) :
    Cursor.run f (steps + 1) ⟨.preorder (id :: stack), none⟩ =
      id :: Cursor.run f steps ⟨.preorder (f.children id ++ stack), none⟩ := by
  simp [Cursor.run, Cursor.next, Cursor.nextWithin, Pending.next]

theorem run_preorder_nil (f : Forest) (steps : Nat) :
    Cursor.run f steps ⟨.preorder [], none⟩ = [] := by
  cases steps <;> simp [Cursor.run, Cursor.next, Cursor.nextWithin, Pending.next]

section Congruence
variable (hchildren : ∀ id, g.children id = f.children id)
include hchildren

theorem run_preorder_congr (steps : Nat) (stack : List NodeId) :
    Cursor.run g steps ⟨.preorder stack, none⟩ = Cursor.run f steps ⟨.preorder stack, none⟩ := by
  induction steps generalizing stack with
  | zero => rfl
  | succ steps ih =>
    cases stack with
    | nil => rw [run_preorder_nil, run_preorder_nil]
    | cons id stack => rw [run_preorder_cons, run_preorder_cons, hchildren, ih]

theorem weightWithin_congr (depth : Nat) (id : NodeId) :
    g.weightWithin depth id = f.weightWithin depth id := by
  induction depth generalizing id with
  | zero => rfl
  | succ depth ih =>
    have hbelow : g.weightWithin depth = f.weightWithin depth := funext ih
    rw [weightWithin, weightWithin, hchildren, hbelow]

theorem walk_congr (hsize : g.size = f.size) (id : NodeId) : g.walk id = f.walk id := by
  rw [walk, walk, traverse, traverse, weight, weight, hsize, weightWithin_congr hchildren]
  exact run_preorder_congr hchildren _ _

end Congruence

end Forest

end Arbor
