import Arbor.Proofs.Forest.Searches

/-!
Traversals without their stacks. The cursor that goes over leaves first meets each node twice: the
first time its children are put on the stack before it, the second time it is given. What is still
to come is therefore read off the stack, entry by entry, and going down to the next node that is
given takes no more levels than there are nodes on a way down.
-/
namespace Arbor
open Relation

namespace Cursor
variable {f : Forest} {stack rest : List (NodeId × Bool)} {c : NodeId}

theorem next_postorder_nil (f : Forest) (omitted : Option NodeId) :
    next f ⟨.postorder [], omitted⟩ = (none, ⟨.postorder [], omitted⟩) := rfl

theorem next_postorder (f : Forest) (h : Pending.descend f (f.size + 2) stack = some (c, rest))
    {omitted : Option NodeId} (hshown : omitted ≠ some c) :
    next f ⟨.postorder stack, omitted⟩ = (some c, ⟨.postorder rest, omitted⟩) := by
  simp [next, nextWithin, Pending.next, h, hshown]

/-- A node that is left out is passed over, and behind the last one nothing follows. -/
theorem next_postorder_last (f : Forest) (h : Pending.descend f (f.size + 2) stack = some (c, [])) :
    next f ⟨.postorder stack, some c⟩ = (none, ⟨.postorder [], some c⟩) := by
  have hnext : next f ⟨.postorder stack, some c⟩ =
      nextWithin f f.size ⟨.postorder [], some c⟩ := by
    simp [next, nextWithin, Pending.next, h]
  rw [hnext]
  cases f.size <;> rfl

end Cursor

namespace Forest
variable {f : Forest} {id n c : NodeId} {depth fuel : Nat} {stack : List (NodeId × Bool)}

/-- What is under each child in turn and then the node, through at most `depth` levels. -/
def postorderWithin (f : Forest) : Nat → NodeId → List NodeId
  | 0, _ => []
  | depth + 1, id => (f.children id).flatMap (postorderWithin f depth) ++ [id]

/-- What is under each child in turn and then the node. -/
def postorder (f : Forest) (id : NodeId) : List NodeId := f.postorderWithin (f.size + 1) id

theorem postorderWithin_succ (h : f.Shallow depth id) :
    f.postorderWithin (depth + 1) id = f.postorderWithin depth id := by
  induction depth generalizing id with
  | zero => exact h.elim
  | succ depth ih =>
    rw [postorderWithin, postorderWithin]
    congr 1
    exact List.flatMap_congr fun c hc => ih (h c hc)

theorem Grounded.postorder_eq (h : f.Grounded id) :
    f.postorder id = (f.children id).flatMap f.postorder ++ [id] := by
  rw [postorder, postorderWithin]
  congr 1
  exact List.flatMap_congr fun c hc => (postorderWithin_succ (h.shallow c hc)).symm

/-- Both orders list the same nodes, each as often. -/
theorem postorderWithin_perm (f : Forest) (depth : Nat) (id : NodeId) :
    (f.postorderWithin depth id).Perm (f.preorderWithin depth id) := by
  induction depth generalizing id with
  | zero => exact .refl _
  | succ depth ih =>
    rw [postorderWithin, preorderWithin]
    have hbelow := List.Perm.flatMap_left (f.children id) fun c _ => ih c
    exact (List.perm_append_singleton id _).trans (hbelow.cons id)

theorem postorder_perm (f : Forest) (id : NodeId) : (f.postorder id).Perm (f.preorder id) :=
  f.postorderWithin_perm _ id

theorem length_postorder (f : Forest) (id : NodeId) : (f.postorder id).length = f.weight id := by
  rw [(f.postorder_perm id).length_eq, length_preorder]

theorem Grounded.not_mem_below (h : f.Grounded id) : id ∉ (f.children id).flatMap f.postorder := by
  rw [(List.Perm.flatMap_left _ fun c _ => f.postorder_perm c).mem_iff, h.mem_flatMap_preorder_iff]
  exact h.not_loop .refl

section Stack

/-- What an entry of the stack stands for: the node alone once its children are listed. -/
def pendingOrder (f : Forest) : NodeId × Bool → List NodeId
  | (id, true) => [id]
  | (id, false) => f.postorder id

/-- Every way down from the nodes that are still to be opened comes to an end. -/
def StackGrounded (f : Forest) (stack : List (NodeId × Bool)) : Prop :=
  ∀ id, (id, false) ∈ stack → f.Grounded id

theorem stackGrounded_opened (h : f.Grounded id) (hstack : f.StackGrounded stack) :
    f.StackGrounded ((f.children id).map (·, false) ++ (id, true) :: stack) := by
  intro c hc
  rcases List.mem_append.mp hc with hc | hc
  · obtain ⟨d, hd, heq⟩ := List.mem_map.mp hc
    obtain rfl : d = c := congrArg Prod.fst heq
    exact h.of_reach (.single hd)
  · rcases List.mem_cons.mp hc with heq | hc
    · cases heq
    · exact hstack c hc

/-- Opening a node changes nothing in what is to come. -/
theorem flatMap_pendingOrder_opened (h : f.Grounded id) (stack : List (NodeId × Bool)) :
    ((f.children id).map (·, false) ++ (id, true) :: stack).flatMap f.pendingOrder =
      ((id, false) :: stack).flatMap f.pendingOrder := by
  rw [List.flatMap_append, List.flatMap_map, List.flatMap_cons, List.flatMap_cons, pendingOrder,
    pendingOrder, h.postorder_eq, List.append_assoc]
  rfl

/-- The node that is given next is the first one to come, and the stack that is left has the
others. -/
def Gives (f : Forest) (stack : List (NodeId × Bool))
    (answer : Option (NodeId × List (NodeId × Bool))) : Prop :=
  ∃ c rest, answer = some (c, rest) ∧ f.StackGrounded rest ∧
    stack.flatMap f.pendingOrder = c :: rest.flatMap f.pendingOrder

theorem gives_listed (hstack : f.StackGrounded stack) (hfuel : 0 < fuel) :
    f.Gives ((id, true) :: stack) (Pending.descend f fuel ((id, true) :: stack)) := by
  obtain ⟨fuel, rfl⟩ := Nat.exists_eq_add_one_of_ne_zero (Nat.ne_of_gt hfuel)
  exact ⟨id, stack, rfl, hstack, rfl⟩

/-- From a node with ways of at most `depth` nodes, one step more leads down to the next one. -/
theorem gives_of_shallow (h : f.Shallow depth id) (hstack : f.StackGrounded stack)
    (hfuel : depth < fuel) :
    f.Gives ((id, false) :: stack) (Pending.descend f fuel ((id, false) :: stack)) := by
  induction depth generalizing id stack fuel with
  | zero => exact h.elim
  | succ depth ih =>
    obtain ⟨fuel, rfl⟩ := Nat.exists_eq_add_one_of_ne_zero (Nat.ne_zero_of_lt hfuel)
    have hid : f.Grounded id := h.grounded
    have hopened := stackGrounded_opened hid hstack
    have horder := flatMap_pendingOrder_opened hid stack
    rw [Pending.descend]
    obtain ⟨c, rest, hanswer, hrest, heq⟩ : f.Gives
        ((f.children id).map (·, false) ++ (id, true) :: stack)
        (Pending.descend f fuel ((f.children id).map (·, false) ++ (id, true) :: stack)) := by
      cases hchildren : f.children id with
      | nil => exact gives_listed hstack (by omega)
      | cons c cs =>
        rw [hchildren] at hopened
        refine ih (h c (by simp [Holds, hchildren])) (fun d hd => ?_) (by omega)
        exact hopened d (List.mem_cons_of_mem _ hd)
    exact ⟨c, rest, hanswer, hrest, horder.symm.trans heq⟩

theorem gives_next (hstack : f.StackGrounded stack) (hne : stack ≠ []) :
    f.Gives stack (Pending.descend f (f.size + 2) stack) := by
  cases stack with
  | nil => exact absurd rfl hne
  | cons entry stack =>
    have hrest : f.StackGrounded stack := fun c hc => hstack c (List.mem_cons_of_mem _ hc)
    obtain ⟨id, listed⟩ := entry
    cases listed with
    | true => exact gives_listed hrest (by omega)
    | false => exact gives_of_shallow (hstack id List.mem_cons_self).shallow hrest (by omega)

theorem eq_nil_of_pendingOrder (hstack : f.StackGrounded stack)
    (h : stack.flatMap f.pendingOrder = []) : stack = [] := by
  by_contra hne
  obtain ⟨c, rest, -, -, heq⟩ := gives_next hstack hne
  rw [h] at heq
  cases heq

/-- A cursor over leaves first gives what its stack stands for, up to a last node that it leaves
out. -/
theorem visits_pendingOrder {omitted : Option NodeId} {ids : List NodeId}
    (hstack : f.StackGrounded stack) (hids : stack.flatMap f.pendingOrder = ids ++ omitted.toList)
    (ho : ∀ o ∈ omitted, o ∉ ids) : Cursor.Visits f ⟨.postorder stack, omitted⟩ ids := by
  induction ids generalizing stack with
  | nil =>
    cases omitted with
    | none =>
      obtain rfl := eq_nil_of_pendingOrder hstack hids
      exact .done (Cursor.next_postorder_nil f none) rfl
    | some o =>
      have hne : stack ≠ [] := by
        rintro rfl
        cases hids
      obtain ⟨c, rest, hanswer, hrest, heq⟩ := gives_next hstack hne
      obtain ⟨rfl, hnil⟩ := List.cons.inj (heq.symm.trans hids)
      obtain rfl := eq_nil_of_pendingOrder hrest hnil
      exact .done (Cursor.next_postorder_last f hanswer) rfl
  | cons first ids ih =>
    have hne : stack ≠ [] := by
      rintro rfl
      cases hids
    obtain ⟨c, rest, hanswer, hrest, heq⟩ := gives_next hstack hne
    obtain ⟨rfl, hrestIds⟩ := List.cons.inj (heq.symm.trans hids)
    have hshown : omitted ≠ some c := fun h => ho c h List.mem_cons_self
    refine .step (Cursor.next_postorder f hanswer hshown) (ih hrest hrestIds ?_)
    exact fun o h hmem => ho o h (List.mem_cons_of_mem _ hmem)

end Stack

section Traversals

theorem Grounded.visits_postorder (h : f.Grounded id) :
    (Cursor.start f id .postorder).Visits f (f.postorder id) :=
  visits_pendingOrder (by simpa [StackGrounded] using h) (by simp [pendingOrder]) (by simp)

theorem Grounded.visits_descendantsPostorder (h : f.Grounded id) :
    (Cursor.start f id .descendantsPostorder).Visits f ((f.children id).flatMap f.postorder) := by
  refine visits_pendingOrder (by simpa [StackGrounded] using h) ?_ ?_
  · simp [pendingOrder, h.postorder_eq]
  · rintro o ⟨⟩
    exact h.not_mem_below

theorem Grounded.traverse_postorder_eq (h : f.Grounded id) :
    f.traverse id .postorder = f.postorder id :=
  h.visits_postorder.run_eq (by rw [length_postorder]; omega)

theorem Grounded.traverse_descendantsPostorder_eq (h : f.Grounded id) :
    f.traverse id .descendantsPostorder = (f.children id).flatMap f.postorder := by
  refine h.visits_descendantsPostorder.run_eq ?_
  have hlength := f.length_postorder id
  rw [h.postorder_eq, List.length_append] at hlength
  omega

end Traversals

/-- From a node under which no node contains itself, all four traversals come to their end. Nodes
first they give a node before what is under each of its children in turn, leaves first they give it
behind that, and the traversals of what is below a node leave exactly this node out. -/
theorem traversals_recursive
    (h : ∀ c, ReflTransGen f.Holds n c → ¬ TransGen f.Holds c c) :
    (Cursor.start f n .preorder).Visits f (f.traverse n .preorder) ∧
      (Cursor.start f n .postorder).Visits f (f.traverse n .postorder) ∧
      (Cursor.start f n .descendantsPreorder).Visits f (f.traverse n .descendantsPreorder) ∧
      (Cursor.start f n .descendantsPostorder).Visits f (f.traverse n .descendantsPostorder) ∧
      f.traverse n .preorder = n :: (f.children n).flatMap (f.traverse · .preorder) ∧
      f.traverse n .postorder = (f.children n).flatMap (f.traverse · .postorder) ++ [n] ∧
      f.traverse n .preorder = n :: f.traverse n .descendantsPreorder ∧
      f.traverse n .postorder = f.traverse n .descendantsPostorder ++ [n] := by
  have hn : f.Grounded n := (shallow_of_no_loop h).grounded
  have hbelow : ∀ c ∈ f.children n, f.Grounded c := fun c hc => hn.of_reach (.single hc)
  have hpre : f.traverse n .preorder = f.preorder n := hn.walk_eq
  have hpost := hn.traverse_postorder_eq
  have hpreBelow : (f.children n).flatMap (f.traverse · .preorder) =
      (f.children n).flatMap f.preorder :=
    List.flatMap_congr fun c hc => (hbelow c hc).walk_eq
  have hpostBelow : (f.children n).flatMap (f.traverse · .postorder) =
      (f.children n).flatMap f.postorder :=
    List.flatMap_congr fun c hc => (hbelow c hc).traverse_postorder_eq
  rw [hpre, hpost, hpreBelow, hpostBelow, hn.descendants_eq, hn.traverse_descendantsPostorder_eq]
  exact ⟨hn.visits_preorder, hn.visits_postorder, hn.visits_descendants,
    hn.visits_descendantsPostorder, hn.preorder_eq, hn.postorder_eq, hn.preorder_eq,
    hn.postorder_eq⟩

/-- A block with two blocks in it that share their only block. -/
def sharedBlocks : Forest :=
  run ((run {} [.create blockType, .create blockType, .create blockType, .create blockType,
    .addChild 0 "body" 1, .addChild 0 "body" 2, .addChild 1 "body" 3]).setParent 3 none)
    [.addChild 2 "body" 3]

theorem traversals_recursive_sharedBlocks :
    let f := sharedBlocks
    (∀ c, ReflTransGen f.Holds 0 c → ¬ TransGen f.Holds c c) ∧
      (Cursor.start f 0 .preorder).Visits f (f.traverse 0 .preorder) ∧
      (Cursor.start f 0 .postorder).Visits f (f.traverse 0 .postorder) ∧
      (Cursor.start f 0 .descendantsPreorder).Visits f (f.traverse 0 .descendantsPreorder) ∧
      (Cursor.start f 0 .descendantsPostorder).Visits f (f.traverse 0 .descendantsPostorder) ∧
      f.traverse 0 .preorder = 0 :: (f.children 0).flatMap (f.traverse · .preorder) ∧
      f.traverse 0 .postorder = (f.children 0).flatMap (f.traverse · .postorder) ++ [0] ∧
      f.traverse 0 .preorder = 0 :: f.traverse 0 .descendantsPreorder ∧
      f.traverse 0 .postorder = f.traverse 0 .descendantsPostorder ++ [0] := by
  intro f
  have h : ∀ c, ReflTransGen f.Holds 0 c → ¬ TransGen f.Holds c c := fun c _ =>
    no_loop_of_lt (by decide) c
  exact ⟨h, traversals_recursive h⟩

example : sharedBlocks.traverse 0 .postorder = [3, 1, 3, 2, 0] := by decide

end Forest

end Arbor
