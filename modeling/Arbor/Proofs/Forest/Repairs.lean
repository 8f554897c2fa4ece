import Arbor.Proofs.Forest.Searches

/-!
Repairs of links. The pass over a tree writes links while its walk is under way, but a walk nodes
first goes by what nodes contain and reads no link, so it visits the same nodes as if nothing were
written. Each node below the root is written by the nodes that hold it and by no others; where it
has one holder among the visited nodes, what its link was before makes no difference.
-/
namespace Arbor
open Relation

namespace Cursor
variable {f : Forest} {ids stack : List NodeId} {act : Forest → NodeId → Forest}

/-- A loop over a cursor, from one forest to another: at each node that the cursor gives the forest
is changed, and the cursor goes on in the changed forest. -/
inductive Drives (act : Forest → NodeId → Forest) : Forest → Cursor → Forest → Prop
  | done {f : Forest} {c c' : Cursor} (hnext : c.next f = (none, c'))
      (hend : c'.pending.held = []) : Drives act f c f
  | step {f g : Forest} {c c' : Cursor} {id : NodeId} (hnext : c.next f = (some id, c'))
      (hrest : Drives act (act f id) c' g) : Drives act f c g

/-- A walk nodes first takes the nodes off its stack, one step after the other, and puts what they
contain in their place until nothing is left. -/
theorem Visits.preorder_induction {motive : List NodeId → List NodeId → Prop} (nil : motive [] [])
    (cons : ∀ id stack ids, motive (f.children id ++ stack) ids → motive (id :: stack) (id :: ids))
    (h : Visits f ⟨.preorder stack, none⟩ ids) : motive stack ids := by
  induction ids generalizing stack with
  | nil =>
    cases stack with
    | nil => exact nil
    | cons id stack =>
      cases h with
      | done hdone =>
        rw [next_preorder_cons f stack (by simp)] at hdone
        cases hdone
  | cons first ids ih =>
    cases h with
    | step hstep hrest =>
      cases stack with
      | nil => cases hstep
      | cons id stack =>
        rw [next_preorder_cons f stack (by simp)] at hstep
        cases hstep
        exact cons _ stack ids (ih hrest)

/-- Where the changes leave alone what nodes contain, a loop over a walk changes the forest at the
nodes that the walk gives in the first forest. -/
theorem Visits.drives (h : Visits f ⟨.preorder stack, none⟩ ids)
    (hact : ∀ (f : Forest) (id p : NodeId), (act f id).children p = f.children p) :
    Drives act f ⟨.preorder stack, none⟩ (ids.foldl act f) := by
  -- the loop may be at any forest in which nodes contain what they did in the first one
  refine Visits.preorder_induction (motive := fun stack ids => ∀ g : Forest,
    (∀ p, g.children p = f.children p) → Drives act g ⟨.preorder stack, none⟩ (ids.foldl act g))
    ?_ ?_ h f fun _ => rfl
  · exact fun g _ => .done (next_preorder_nil g none) rfl
  · intro id stack ids ih g hg
    refine .step (next_preorder_cons g stack (by simp)) ?_
    rw [hg id]
    exact ih (act g id) fun p => (hact g id p).trans (hg p)

end Cursor

namespace Forest
variable {f g : Forest} {ids : List NodeId} {root id m p : NodeId}

section Adoption

/-- Setting a link again, once or more often, sets it. -/
theorem iterate_setParent (n : Node) (parent : Option NodeId) {k : Nat} (hk : 0 < k) :
    (Node.setParent · parent)^[k] n = n.setParent parent := by
  induction k generalizing n with
  | zero => exact absurd hk (Nat.lt_irrefl 0)
  | succ k ih =>
    rw [Function.iterate_succ_apply]
    rcases Nat.eq_zero_or_pos k with rfl | hk
    · rfl
    · exact ih _ hk

theorem node?_adoptChildren (f : Forest) (id m : NodeId) :
    (f.adoptChildren id).node? m =
      (f.node? m).map (Node.setParent · (some id))^[(f.children id).count m] :=
  node?_foldl_update (Node.setParent · (some id)) (f.children id) f m

theorem node?_adoptChildren_of_holds (h : f.Holds id m) :
    (f.adoptChildren id).node? m = (f.node? m).map (·.setParent (some id)) := by
  rw [node?_adoptChildren]
  exact congrArg (Option.map · (f.node? m))
    (funext fun n => iterate_setParent n (some id) (List.count_pos_iff.mpr h))

theorem node?_adoptChildren_of_not_holds (h : ¬ f.Holds id m) :
    (f.adoptChildren id).node? m = f.node? m := by
  rw [node?_adoptChildren, List.count_eq_zero_of_not_mem h]
  exact Option.map_id'

end Adoption

section Links

/-- Between the two forests nothing differs but links. -/
def SameButLinks (f g : Forest) : Prop :=
  ∀ m, (g.node? m).map (·.setParent none) = (f.node? m).map (·.setParent none)

theorem SameButLinks.children_eq (h : f.SameButLinks g) (p : NodeId) :
    g.children p = f.children p := by
  have hread : ∀ f : Forest, f.children p =
      (((f.node? p).map (·.setParent none)).map Node.children).getD [] := by
    intro f
    rw [Option.map_map]
    rfl
  rw [hread g, h p, ← hread f]

theorem SameButLinks.holds_iff (h : f.SameButLinks g) : g.Holds p m ↔ f.Holds p m := by
  rw [Holds, Holds, h.children_eq]

theorem SameButLinks.contains_eq (h : f.SameButLinks g) (m : NodeId) :
    g.contains m = f.contains m := by
  have hread : ∀ f : Forest, f.contains m = ((f.node? m).map (·.setParent none)).isSome := by
    intro f
    rw [Option.isSome_map]
    rfl
  rw [hread g, h m, ← hread f]

/-- A node that stays as it is keeps its link, as no node comes or goes. -/
theorem SameButLinks.parent?_eq (h : f.SameButLinks g) (hm : g.node? m = f.node? m) :
    g.parent? m = f.parent? m := by
  rw [parent?, parent?, hm, funext h.contains_eq]

theorem sameButLinks_adoptChildren (f : Forest) (id : NodeId) :
    f.SameButLinks (f.adoptChildren id) := by
  intro m
  by_cases hm : f.Holds id m
  · rw [node?_adoptChildren_of_holds hm, Option.map_map]
    rfl
  · rw [node?_adoptChildren_of_not_holds hm]

theorem children_adoptChildren (f : Forest) (id p : NodeId) :
    (f.adoptChildren id).children p = f.children p :=
  (sameButLinks_adoptChildren f id).children_eq p

theorem sameButLinks_foldl_adoptChildren (f : Forest) (ids : List NodeId) :
    f.SameButLinks (ids.foldl adoptChildren f) := by
  induction ids generalizing f with
  | nil => exact fun _ => rfl
  | cons id ids ih =>
    exact fun m => (ih (f.adoptChildren id) m).trans (sameButLinks_adoptChildren f id m)

theorem size_foldl_adoptChildren (f : Forest) (ids : List NodeId) :
    (ids.foldl adoptChildren f).size = f.size := by
  have hone : ∀ (cs : List NodeId) (p : Option NodeId) (g : Forest),
      (cs.foldl (fun g c => g.setParent c p) g).size = g.size := by
    intro cs p
    induction cs with
    | nil => exact fun _ => rfl
    | cons c cs ih => exact fun g => (ih _).trans (size_update g c _)
  induction ids generalizing f with
  | nil => rfl
  | cons id ids ih => exact (ih _).trans (hone _ _ f)

/-- What none of the nodes holds stays as it is. -/
theorem node?_foldl_adoptChildren_of_not_held (h : ∀ id ∈ ids, ¬ f.Holds id m) :
    (ids.foldl adoptChildren f).node? m = f.node? m := by
  induction ids generalizing f with
  | nil => rfl
  | cons id ids ih =>
    have hsame := sameButLinks_adoptChildren f id
    rw [List.foldl_cons, ih fun q hq => mt hsame.holds_iff.mp (h q (List.mem_cons_of_mem _ hq)),
      node?_adoptChildren_of_not_holds (h id List.mem_cons_self)]

/-- A node that just one of the nodes holds points back at that one in the end. -/
theorem node?_foldl_adoptChildren_of_held (hp : p ∈ ids) (hheld : f.Holds p m)
    (hsole : ∀ q ∈ ids, f.Holds q m → q = p) :
    (ids.foldl adoptChildren f).node? m = (f.node? m).map (·.setParent (some p)) := by
  induction ids generalizing f with
  | nil => cases hp
  | cons id ids ih =>
    have hsame := sameButLinks_adoptChildren f id
    have hrest : ∀ q ∈ ids, (f.adoptChildren id).Holds q m → q = p := fun q hq hm =>
      hsole q (List.mem_cons_of_mem _ hq) (hsame.holds_iff.mp hm)
    rw [List.foldl_cons]
    by_cases hlater : p ∈ ids
    · rw [ih hlater (hsame.holds_iff.mpr hheld) hrest]
      -- the link may have been set before already, and then to the same node
      by_cases hnow : f.Holds id m
      · rw [node?_adoptChildren_of_holds hnow, Option.map_map]
        rfl
      · rw [node?_adoptChildren_of_not_holds hnow]
    · obtain rfl : p = id := (List.mem_cons.mp hp).resolve_right hlater
      rw [node?_foldl_adoptChildren_of_not_held fun q hq hm => hlater (hrest q hq hm ▸ hq),
        node?_adoptChildren_of_holds hheld]

/-- Links that are set to what they are stay. -/
theorem adoptChildren_eq (h : ∀ c ∈ f.children id, ∀ n, f.node? c = some n → n.parent = some id) :
    f.adoptChildren id = f := by
  unfold adoptChildren
  generalize f.children id = cs at h
  induction cs with
  | nil => rfl
  | cons c rest ih =>
    have hsame : f.setParent c (some id) = f := by
      cases hc : f.node? c with
      | none => rw [setParent, update, hc]
      | some n =>
        refine update_eq_self hc ?_
        rw [Node.setParent, ← h c List.mem_cons_self n hc]
    rw [List.foldl_cons, hsame]
    exact ih fun d hd => h d (List.mem_cons_of_mem _ hd)

theorem foldl_adoptChildren_eq_self (h : ∀ id ∈ ids, f.adoptChildren id = f) :
    ids.foldl adoptChildren f = f := by
  induction ids with
  | nil => rfl
  | cons id ids ih =>
    rw [List.foldl_cons, h id List.mem_cons_self]
    exact ih fun q hq => h q (List.mem_cons_of_mem _ hq)

end Links

section Repair

/-- What becomes of a forest `f` when links are set right below `root`: nodes there point back at
what holds them, and everything else is as it was. -/
structure Repaired (f : Forest) (root : NodeId) (g : Forest) : Prop where
  below : ∀ p c, ReflTransGen f.Holds root p → f.Holds p c → f.contains c → g.parent? c = some p
  rootLink : g.parent? root = f.parent? root
  outside : ∀ m, ¬ ReflTransGen f.Holds root m →
    g.node? m = f.node? m ∧ g.parent? m = f.parent? m
  slots : f.SameButLinks g

theorem Grounded.assignParents_eq (h : f.Grounded root) :
    f.assignParents root = (f.preorder root).foldl adoptChildren f := by
  rw [assignParents, h.walk_eq]

theorem Grounded.drives_assignParents (h : f.Grounded root) :
    Cursor.Drives adoptChildren f (Cursor.start f root .preorder) (f.assignParents root) := by
  rw [h.assignParents_eq]
  exact h.visits_preorder.drives children_adoptChildren

/-- What does not lie below the root is not written. -/
theorem Grounded.node?_assignParents_of_not_below (h : f.Grounded root)
    (hm : ¬ TransGen f.Holds root m) : (f.assignParents root).node? m = f.node? m := by
  rw [h.assignParents_eq]
  refine node?_foldl_adoptChildren_of_not_held fun p hp hheld => hm ?_
  exact TransGen.tail' (h.mem_preorder_iff.mp hp) hheld

variable (hsole : ∀ p q c, ReflTransGen f.Holds root p → ReflTransGen f.Holds root q →
  f.Holds p c → f.Holds q c → p = q)

include hsole in
theorem Grounded.node?_assignParents_of_held (h : f.Grounded root)
    (hp : ReflTransGen f.Holds root p) (hheld : f.Holds p m) :
    (f.assignParents root).node? m = (f.node? m).map (·.setParent (some p)) := by
  rw [h.assignParents_eq]
  refine node?_foldl_adoptChildren_of_held (h.mem_preorder_iff.mpr hp) hheld fun q hq hm => ?_
  exact hsole q p m (h.mem_preorder_iff.mp hq) hp hm hheld

theorem sameButLinks_assignParents (f : Forest) (root : NodeId) :
    f.SameButLinks (f.assignParents root) :=
  sameButLinks_foldl_adoptChildren f _

include hsole in
theorem Grounded.repaired_assignParents (h : f.Grounded root) :
    f.Repaired root (f.assignParents root) where
  below p c hp hheld hlive := by
    obtain ⟨n, hn⟩ := Option.isSome_iff_exists.mp hlive
    refine parent?_eq_some.mpr ⟨⟨n.setParent (some p), ?_, rfl⟩, ?_⟩
    · rw [h.node?_assignParents_of_held hsole hp hheld, hn, Option.map_some]
    · rw [(sameButLinks_assignParents f root).contains_eq]
      exact contains_of_holds hheld
  rootLink := (sameButLinks_assignParents f root).parent?_eq
    (h.node?_assignParents_of_not_below (h.not_loop .refl))
  outside m hm :=
    have hnode := h.node?_assignParents_of_not_below (mt TransGen.to_reflTransGen hm)
    ⟨hnode, (sameButLinks_assignParents f root).parent?_eq hnode⟩
  slots := sameButLinks_assignParents f root

include hsole in
theorem Grounded.assignParents_assignParents (h : f.Grounded root) :
    (f.assignParents root).assignParents root = f.assignParents root := by
  have hsame := sameButLinks_assignParents f root
  have hwalk : (f.assignParents root).walk root = f.walk root :=
    walk_congr hsame.children_eq (size_foldl_adoptChildren f _) root
  rw [assignParents, hwalk, h.walk_eq]
  refine foldl_adoptChildren_eq_self fun p hp => adoptChildren_eq fun c hc n hn => ?_
  rw [hsame.children_eq] at hc
  rw [h.node?_assignParents_of_held hsole (h.mem_preorder_iff.mp hp) hc,
    Option.map_eq_some_iff] at hn
  obtain ⟨n, -, rfl⟩ := hn
  rfl

/-- Below a node under which no node contains itself and none is held by two, the pass sets every
link right whatever the links were: it comes to its end, a node then points back at its holder, the
link of the first node, all other nodes and all slots are as before, and a second pass changes
nothing. -/
theorem assignParents_repairs
    (hends : ∀ c, ReflTransGen f.Holds root c → ¬ TransGen f.Holds c c)
    (hsole : ∀ p q c, ReflTransGen f.Holds root p → ReflTransGen f.Holds root q →
      f.Holds p c → f.Holds q c → p = q) :
    Cursor.Drives adoptChildren f (Cursor.start f root .preorder) (f.assignParents root) ∧
      f.Repaired root (f.assignParents root) ∧
      (f.assignParents root).assignParents root = f.assignParents root := by
  have h : f.Grounded root := (shallow_of_no_loop hends).grounded
  exact ⟨h.drives_assignParents, h.repaired_assignParents hsole,
    h.assignParents_assignParents hsole⟩

end Repair

section Sample

/-- Blocks in blocks, with links that are missing, lead to a wrong node of the tree, out of it or to
no node at all, and one more block on its own. -/
def looseBlocks : Forest :=
  let f := run {} [.create blockType, .create blockType, .create blockType, .create blockType,
    .create blockType, .create blockType, .addChild 1 "body" 2, .addChild 3 "body" 4,
    .addChild 0 "body" 1, .addChild 0 "body" 3]
  let links := [(0, some 5), (1, none), (2, some 4), (3, some 5), (4, some 9)]
  links.foldl (fun f (id, parent) => f.setParent id parent) f

theorem assignParents_repairs_looseBlocks :
    let f := looseBlocks
    (∀ c, ReflTransGen f.Holds 0 c → ¬ TransGen f.Holds c c) ∧
      (∀ p q c, ReflTransGen f.Holds 0 p → ReflTransGen f.Holds 0 q →
        f.Holds p c → f.Holds q c → p = q) ∧
      Cursor.Drives adoptChildren f (Cursor.start f 0 .preorder) (f.assignParents 0) ∧
      f.Repaired 0 (f.assignParents 0) ∧
      (f.assignParents 0).assignParents 0 = f.assignParents 0 := by
  intro f
  have hends : ∀ c, ReflTransGen f.Holds 0 c → ¬ TransGen f.Holds c c := fun c _ =>
    no_loop_of_lt (by decide) c
  have hone : ∀ p < f.size, ∀ q < f.size, ∀ c ∈ f.children p, c ∈ f.children q → p = q := by
    decide
  have hsole : ∀ p q c, ReflTransGen f.Holds 0 p → ReflTransGen f.Holds 0 q →
      f.Holds p c → f.Holds q c → p = q := fun p q c _ _ hp hq =>
    hone p (lt_size_of_contains (contains_of_holds hp)) q
      (lt_size_of_contains (contains_of_holds hq)) c hp hq
  exact ⟨hends, hsole, assignParents_repairs hends hsole⟩

example : (List.range 6).map (looseBlocks.assignParents 0).parent? =
    [some 5, some 0, some 1, some 0, some 3, none] := by decide

end Sample

end Forest

end Arbor
