import Arbor.Proofs.Forest.Containment
import Arbor.Proofs.Forest.Walks
import Mathlib.Data.List.Nodup

/-!
The order of a walk without its stack: a node, and then what comes from each of its children in
turn. A way down that comes to an end has no node twice, so there are at least as many cells as it
has nodes; hence a depth that counts the cells reaches every node below, and the steps that a walk
is given lead to its end.
-/
namespace Arbor
open Relation

namespace Cursor
variable {f : Forest} {c : Cursor} {ids : List NodeId}

/-- The cursor comes to its end and gives these nodes on the way. -/
inductive Visits (f : Forest) : Cursor → List NodeId → Prop
  | done {c c' : Cursor} (hnext : c.next f = (none, c')) (hend : c'.pending.held = []) :
      Visits f c []
  | step {c c' : Cursor} {id : NodeId} {ids : List NodeId} (hnext : c.next f = (some id, c'))
      (hrest : Visits f c' ids) : Visits f c (id :: ids)

/-- A run of as many steps as there are nodes gives them all. -/
theorem Visits.run_eq (h : c.Visits f ids) {steps : Nat} (hsteps : ids.length ≤ steps) :
    c.run f steps = ids := by
  induction h generalizing steps with
  | done hnext _ =>
    cases steps with
    | zero => rfl
    | succ steps => rw [run, hnext]
  | step hnext _ ih =>
    cases steps with
    | zero => simp at hsteps
    | succ steps =>
      rw [run, hnext]
      exact congrArg _ (ih (by simpa using hsteps))

theorem next_preorder_nil (f : Forest) (omitted : Option NodeId) :
    next f ⟨.preorder [], omitted⟩ = (none, ⟨.preorder [], omitted⟩) := rfl

theorem next_preorder_cons (f : Forest) {id : NodeId} (stack : List NodeId)
    {omitted : Option NodeId} (h : omitted ≠ some id) :
    next f ⟨.preorder (id :: stack), omitted⟩ =
      (some id, ⟨.preorder (f.children id ++ stack), omitted⟩) := by
  simp [next, nextWithin, Pending.next, h]

end Cursor

namespace Forest
variable {f : Forest} {id c m : NodeId} {depth : Nat}

/-- The node `p` contains the node `c`. -/
def Holds (f : Forest) (p c : NodeId) : Prop := c ∈ f.children p

/-- No node is held twice, neither by one node nor by two. -/
structure HeldOnce (f : Forest) : Prop where
  nodup : ∀ p, (f.children p).Nodup
  sole : ∀ {p q c}, f.Holds p c → f.Holds q c → p = q

/-- Every way down from the node comes to an end. -/
inductive Grounded (f : Forest) : NodeId → Prop
  | intro {id : NodeId} (below : ∀ c, f.Holds id c → f.Grounded c) : f.Grounded id

/-- Every way down from the node has at most `depth` nodes. -/
def Shallow (f : Forest) : Nat → NodeId → Prop
  | 0, _ => False
  | depth + 1, id => ∀ c, f.Holds id c → f.Shallow depth c

/-- A node and then what is under each child in turn, through at most `depth` levels. -/
def preorderWithin (f : Forest) : Nat → NodeId → List NodeId
  | 0, _ => []
  | depth + 1, id => id :: (f.children id).flatMap (preorderWithin f depth)

/-- A node and then what is under each child in turn. -/
def preorder (f : Forest) (id : NodeId) : List NodeId := f.preorderWithin (f.size + 1) id

theorem contains_of_holds (h : f.Holds id c) : f.contains id := by
  unfold Holds children at h
  unfold contains
  cases hn : f.node? id with
  | none => simp [hn] at h
  | some n => rfl

section Depth

/-- Below a node from which all ways end no node contains itself. -/
theorem Grounded.not_loop (h : f.Grounded id) (hr : ReflTransGen f.Holds id c) :
    ¬ TransGen f.Holds c c := by
  induction h generalizing c with
  | @intro id _ ih =>
    have hself : ¬ TransGen f.Holds id id := by
      intro hloop
      obtain ⟨d, hd, hback⟩ := TransGen.head'_iff.mp hloop
      exact ih d hd .refl (TransGen.tail' hback hd)
    rcases hr.cases_head with rfl | ⟨d, hd, hr⟩
    · exact hself
    · exact ih d hd hr

theorem Grounded.of_reach (h : f.Grounded id) (hr : ReflTransGen f.Holds id c) :
    f.Grounded c := by
  induction hr with
  | refl => exact h
  | tail _ hstep ih =>
    obtain ⟨hbelow⟩ := ih
    exact hbelow _ hstep

theorem Shallow.grounded (h : f.Shallow depth id) : f.Grounded id := by
  induction depth generalizing id with
  | zero => exact h.elim
  | succ depth ih => exact .intro fun c hc => ih (h c hc)

/-- Where numbers grow on every way down, no node contains itself. -/
theorem no_loop_of_lt (h : ∀ p < f.size, ∀ d ∈ f.children p, p < d) (c : NodeId) :
    ¬ TransGen f.Holds c c := by
  have hstep : ∀ {p d}, f.Holds p d → p < d := fun {p d} hd =>
    h p (lt_size_of_contains (contains_of_holds hd)) d hd
  have hway : ∀ {d}, TransGen f.Holds c d → c < d := by
    intro d hd
    induction hd with
    | single hd => exact hstep hd
    | tail _ hd ih => exact Nat.lt_trans ih (hstep hd)
  exact fun hloop => Nat.lt_irrefl c (hway hloop)

/-- A node that is not shallow begins a way down of nodes that all contain something. -/
theorem exists_way_down (hloop : ∀ c, ReflTransGen f.Holds id c → ¬ TransGen f.Holds c c)
    (hdeep : ¬ f.Shallow depth id) :
    ∃ way : List NodeId, way.length = depth ∧ way.Nodup ∧
      ∀ c ∈ way, c < f.size ∧ ReflTransGen f.Holds id c := by
  induction depth generalizing id with
  | zero => exact ⟨[], rfl, .nil, by simp⟩
  | succ depth ih =>
    obtain ⟨c, hc, hdeep⟩ : ∃ c, f.Holds id c ∧ ¬ f.Shallow depth c := by
      simpa [Shallow] using hdeep
    obtain ⟨way, hlength, hnodup, hway⟩ := ih (fun d hd => hloop d (hd.head hc)) hdeep
    refine ⟨id :: way, by simp [hlength], List.nodup_cons.mpr ⟨fun hmem => ?_, hnodup⟩, ?_⟩
    · exact hloop id .refl (.head' hc (hway id hmem).2)
    · intro d hd
      rcases List.mem_cons.mp hd with rfl | hd
      · exact ⟨lt_size_of_contains (contains_of_holds hc), .refl⟩
      · exact ⟨(hway d hd).1, (hway d hd).2.head hc⟩

theorem shallow_of_no_loop (hloop : ∀ c, ReflTransGen f.Holds id c → ¬ TransGen f.Holds c c) :
    f.Shallow (f.size + 1) id := by
  by_contra hdeep
  obtain ⟨way, hlength, hnodup, hway⟩ := exists_way_down hloop hdeep
  have := length_le_size hnodup fun c hc => (hway c hc).1
  omega

theorem Grounded.shallow (h : f.Grounded id) : f.Shallow (f.size + 1) id :=
  shallow_of_no_loop fun _ => h.not_loop

/-- More levels than there are change nothing. -/
theorem preorderWithin_succ (h : f.Shallow depth id) :
    f.preorderWithin (depth + 1) id = f.preorderWithin depth id := by
  induction depth generalizing id with
  | zero => exact h.elim
  | succ depth ih =>
    rw [preorderWithin, preorderWithin]
    congr 1
    exact List.flatMap_congr fun c hc => ih (h c hc)

theorem Grounded.preorder_eq (h : f.Grounded id) :
    f.preorder id = id :: (f.children id).flatMap f.preorder := by
  rw [preorder, preorderWithin]
  congr 1
  exact List.flatMap_congr fun c hc => (preorderWithin_succ (h.shallow c hc)).symm

end Depth

section Members

/-- The nodes in the order are the node itself and all that is below it. -/
theorem Grounded.mem_preorder_iff (h : f.Grounded id) :
    m ∈ f.preorder id ↔ ReflTransGen f.Holds id m := by
  induction h with
  | @intro id hbelow ih =>
    rw [(Grounded.intro hbelow).preorder_eq, List.mem_cons, List.mem_flatMap]
    constructor
    · rintro (rfl | ⟨c, hc, hm⟩)
      · exact .refl
      · exact .head hc ((ih c hc).mp hm)
    · intro hr
      rcases hr.cases_head with rfl | ⟨c, hc, hr⟩
      · exact .inl rfl
      · exact .inr ⟨c, hc, (ih c hc).mpr hr⟩

theorem Grounded.mem_flatMap_preorder_iff (h : f.Grounded id) :
    m ∈ (f.children id).flatMap f.preorder ↔ TransGen f.Holds id m := by
  rw [List.mem_flatMap, TransGen.head'_iff]
  constructor
  · rintro ⟨c, hc, hm⟩
    exact ⟨c, hc, (h.of_reach (.single hc)).mem_preorder_iff.mp hm⟩
  · rintro ⟨c, hc, hr⟩
    exact ⟨c, hc, (h.of_reach (.single hc)).mem_preorder_iff.mpr hr⟩

/-- Where no node is held twice, two children of one node have nothing below them in common. -/
theorem HeldOnce.disjoint_preorder (hone : f.HeldOnce) (h : f.Grounded id) {d : NodeId}
    (hc : f.Holds id c) (hd : f.Holds id d) (hne : c ≠ d) :
    List.Disjoint (f.preorder c) (f.preorder d) := by
  -- a child that lies below another one is held by a node below its own holder
  have hapart : ∀ {a b}, f.Holds id a → f.Holds id b → a ≠ b → ¬ ReflTransGen f.Holds a b := by
    intro a b ha hb hab hr
    rcases hr.cases_tail with rfl | ⟨p, hr, hp⟩
    · exact hab rfl
    · obtain rfl := hone.sole hp hb
      exact h.not_loop .refl (.head' ha hr)
  have hup : Relator.RightUnique (Function.swap f.Holds) := fun _ _ _ hp hq => hone.sole hp hq
  intro m hmc hmd
  have hcm := (h.of_reach (.single hc)).mem_preorder_iff.mp hmc
  have hdm := (h.of_reach (.single hd)).mem_preorder_iff.mp hmd
  rcases ReflTransGen.total_of_right_unique hup hcm.swap hdm.swap with hr | hr
  · exact hapart hd hc hne.symm (reflTransGen_swap.mp hr)
  · exact hapart hc hd hne (reflTransGen_swap.mp hr)

theorem HeldOnce.nodup_preorder (hone : f.HeldOnce) (h : f.Grounded id) :
    (f.preorder id).Nodup := by
  induction h with
  | @intro id hbelow ih =>
    have hid := Grounded.intro hbelow
    rw [hid.preorder_eq, List.nodup_cons, hid.mem_flatMap_preorder_iff, List.nodup_flatMap]
    refine ⟨hid.not_loop .refl, ih, ?_⟩
    refine (hone.nodup id).imp_of_mem fun hc hd hne => ?_
    exact hone.disjoint_preorder hid hc hd hne

end Members

section Walking

theorem length_preorderWithin (f : Forest) (depth : Nat) (id : NodeId) :
    (f.preorderWithin depth id).length = f.weightWithin depth id := by
  induction depth generalizing id with
  | zero => rfl
  | succ depth ih =>
    rw [preorderWithin, weightWithin, List.length_cons, List.length_flatMap, total, funext ih,
      List.sum_eq_foldl]

/-- A walk lists, one after the other, what is at and under the nodes on its stack. -/
theorem visits_stack {stack : List NodeId} {omitted : Option NodeId}
    (hstack : ∀ id ∈ stack, f.Grounded id) (ho : ∀ o ∈ omitted, o ∉ stack.flatMap f.preorder) :
    Cursor.Visits f ⟨.preorder stack, omitted⟩ (stack.flatMap f.preorder) := by
  generalize hids : stack.flatMap f.preorder = ids at ho ⊢
  -- each step takes the first node off the list and leaves the list of the new stack
  induction ids generalizing stack with
  | nil =>
    cases stack with
    | nil => exact .done (Cursor.next_preorder_nil f omitted) rfl
    | cons id stack =>
      rw [List.flatMap_cons, (hstack id List.mem_cons_self).preorder_eq] at hids
      contradiction
  | cons first rest ih =>
    cases stack with
    | nil => contradiction
    | cons id stack =>
      have hid := hstack id List.mem_cons_self
      rw [List.flatMap_cons, hid.preorder_eq, List.cons_append, ← List.flatMap_append] at hids
      obtain ⟨rfl, hrest⟩ := List.cons.inj hids
      have hshown : omitted ≠ some id := fun h => ho id h List.mem_cons_self
      refine .step (Cursor.next_preorder_cons f stack hshown) (ih ?_ hrest ?_)
      · intro c hc
        rcases List.mem_append.mp hc with hc | hc
        · exact hid.of_reach (.single hc)
        · exact hstack c (List.mem_cons_of_mem _ hc)
      · exact fun o h hmem => ho o h (List.mem_cons_of_mem _ hmem)

theorem length_preorder (f : Forest) (id : NodeId) : (f.preorder id).length = f.weight id :=
  length_preorderWithin f _ id

theorem Grounded.visits_preorder (h : f.Grounded id) :
    (Cursor.start f id .preorder).Visits f (f.preorder id) := by
  have hvisits : Cursor.Visits f ⟨.preorder [id], none⟩ ([id].flatMap f.preorder) :=
    visits_stack (by simpa using h) (by simp)
  rwa [List.flatMap_singleton] at hvisits

theorem Grounded.walk_eq (h : f.Grounded id) : f.walk id = f.preorder id :=
  h.visits_preorder.run_eq (by rw [length_preorder]; omega)

end Walking

end Forest

end Arbor
