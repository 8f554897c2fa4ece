import Arbor.Proofs.Forest.Adoption
import Arbor.Proofs.Forest.Walks
import Mathlib.Algebra.GroupWithZero.Nat

/-!
Trees of nodes that mirror parse trees. The outline of a parse tree lists its rule nodes, nodes
before what they contain, each with the place of the one that contains it. A tree of nodes mirrors
a rule node if its cells, taken in their order, are the outline; a walk then follows the outline.
-/
namespace Arbor

namespace ParseTree

mutual

/-- Rule nodes in the order of the text, each with the place of its parent, where the first one has
the given place. -/
def outline (parent : Option Nat) (place : Nat) : ParseTree → List (ParseNode × Option Nat)
  | .token _ => []
  | .error _ => []
  | .node ⟨rule, children, start, stop, input⟩ =>
      (⟨rule, children, start, stop, input⟩, parent) ::
        outlineOf (some place) (place + 1) children

def outlineOf (parent : Option Nat) (place : Nat) : List ParseTree → List (ParseNode × Option Nat)
  | [] => []
  | t :: rest => t.outline parent place ++ outlineOf parent (place + t.nodeCount) rest

end

/-- How many rule nodes there are in and under the nodes. -/
def countOf (ns : List ParseNode) : Nat := (ns.map (·.nodeCount)).sum

theorem countOf_cons (n : ParseNode) (ns : List ParseNode) :
    countOf (n :: ns) = n.nodeCount + countOf ns := by simp [countOf]

theorem countOf_append (ms ns : List ParseNode) : countOf (ms ++ ns) = countOf ms + countOf ns := by
  simp [countOf]

/-- The outlines of nodes one behind the other. -/
def outlines (parent : Option Nat) : Nat → List ParseNode → List (ParseNode × Option Nat)
  | _, [] => []
  | place, n :: rest => (node n).outline parent place ++ outlines parent (place + n.nodeCount) rest

theorem nodeCount_node (n : ParseNode) : (node n).nodeCount = n.nodeCount := rfl

theorem nodeCountOf_eq (ts : List ParseTree) : nodeCountOf ts = countOf (ts.filterMap node?) := by
  induction ts with
  | nil => rfl
  | cons t rest ih =>
    cases t with
    | node n => simp [nodeCountOf, nodeCount_node, node?, ih, countOf_cons]
    | _ => simp [nodeCountOf, nodeCount, List.filterMap_cons, node?, ih]

theorem outlineOf_eq (parent : Option Nat) (place : Nat) (ts : List ParseTree) :
    outlineOf parent place ts = outlines parent place (ts.filterMap node?) := by
  induction ts generalizing place with
  | nil => rfl
  | cons t rest ih =>
    cases t with
    | node n => simp [outlineOf, nodeCount_node, node?, ih, outlines]
    | _ => simp [outlineOf, outline, nodeCount, List.filterMap_cons, node?, ih]

end ParseTree

namespace RuleNode
open ParseTree

/-- The rule nodes of a tree, each with the place of its parent among them. -/
def outline (n : ParseNode) : List (ParseNode × Option Nat) := (ParseTree.node n).outline none 0

theorem nodeCount_eq (n : ParseNode) : n.nodeCount = countOf n.childNodes + 1 := by
  rw [nodeCount, nodeCountOf_eq, childNodes]

theorem nodeCount_lt_of_mem {n c : ParseNode} (h : c ∈ n.childNodes) :
    c.nodeCount < n.nodeCount := by
  obtain ⟨before, after, hsplit⟩ := List.append_of_mem h
  rw [n.nodeCount_eq, hsplit, countOf_append, countOf_cons]
  omega

theorem outline_node (n : ParseNode) (parent : Option Nat) (place : Nat) :
    (ParseTree.node n).outline parent place =
      (n, parent) :: outlines (some place) (place + 1) n.childNodes := by
  rw [childNodes, ← outlineOf_eq]
  rfl

/-- The rule nodes of a tree, nodes before what they contain. -/
def preorder (n : ParseNode) : List ParseNode := n.outline.map (·.1)

theorem map_fst_outlines {ns : List ParseNode} {parent : Option Nat} {place : Nat}
    (h : ∀ n ∈ ns, ∀ parent place, ((node n).outline parent place).map (·.1) = n.preorder) :
    (outlines parent place ns).map (·.1) = ns.flatMap preorder := by
  induction ns generalizing place with
  | nil => rfl
  | cons n ns ih =>
    rw [outlines, List.map_append, h n (by simp), ih fun m hm => h m (by simp [hm]),
      List.flatMap_cons]

theorem map_fst_outline (n : ParseNode) (parent : Option Nat) (place : Nat) :
    ((node n).outline parent place).map (·.1) = n :: n.childNodes.flatMap preorder := by
  induction hsize : n.nodeCount using Nat.strongRecOn generalizing n parent place with
  | _ size ih =>
    rw [outline_node, List.map_cons, map_fst_outlines]
    intro c hc parent place
    have hlt := hsize ▸ nodeCount_lt_of_mem hc
    rw [ih _ hlt c parent place rfl]
    exact (ih _ hlt c none 0 rfl).symm

theorem preorder_eq (n : ParseNode) : n.preorder = n :: n.childNodes.flatMap preorder :=
  map_fst_outline n none 0

end RuleNode

namespace Node

/-- A node that stands for a rule node, with this link and nothing pinned. Its type and data are as
`R` wants them. -/
structure StandsFor (R : ParseNode → Descriptor → List Slot → Prop) (m : Node)
    (parent : Option Nat) (n : ParseNode) : Prop where
  origin : m.origin = some (.source (.tree n))
  parent : m.parent = parent
  pin : m.pin = none
  typed : m.Typed
  names : (m.descriptor.properties.map (·.name)).Nodup
  look : R n m.descriptor m.data

theorem StandsFor.setParent {R : ParseNode → Descriptor → List Slot → Prop} {m : Node}
    {parent parent' : Option Nat} {n : ParseNode} (h : m.StandsFor R parent n) :
    (m.setParent parent').StandsFor R parent' n :=
  ⟨h.origin, rfl, h.pin, h.typed.setParent parent', h.names, h.look⟩

/-- The nodes differ at most in the targets of their references. -/
structure Alike (m m' : Node) : Prop where
  origin : m'.origin = m.origin
  parent : m'.parent = m.parent
  pin : m'.pin = m.pin
  typed : m.Typed → m'.Typed
  descriptor : m'.descriptor = m.descriptor
  data : m'.data = m.data
  children : m'.children = m.children

theorem Alike.refl (m : Node) : m.Alike m := ⟨rfl, rfl, rfl, id, rfl, rfl, rfl⟩

theorem StandsFor.alike {R : ParseNode → Descriptor → List Slot → Prop} {m m' : Node}
    {parent : Option Nat} {n : ParseNode} (h : m.StandsFor R parent n) (ha : m.Alike m') :
    m'.StandsFor R parent n where
  origin := ha.origin.trans h.origin
  parent := ha.parent.trans h.parent
  pin := ha.pin.trans h.pin
  typed := ha.typed h.typed
  names := ha.descriptor ▸ h.names
  look := by rw [ha.descriptor, ha.data]; exact h.look

end Node

namespace Forest
open ParseTree
variable {R : ParseNode → Descriptor → List Slot → Prop} {f g : Forest} {parent : Option Nat}
  {id start : Nat} {n c : ParseNode} {cs : List ParseNode}

/-- The first cells of nodes one behind the other, each with room for what is under it. -/
def placesFrom : Nat → List ParseNode → List Nat
  | _, [] => []
  | id, n :: rest => id :: placesFrom (id + n.nodeCount) rest

/-- The cells from `id` on hold the tree of nodes for a rule node, with this link at the root. -/
inductive Mirrors (R : ParseNode → Descriptor → List Slot → Prop) (f : Forest) :
    Option Nat → Nat → ParseNode → Prop
  | intro {parent : Option Nat} {id : Nat} {n : ParseNode} {m : Node}
      (hnode : f.node? id = some m) (hm : m.StandsFor R parent n)
      (hchildren : m.children = placesFrom (id + 1) n.childNodes)
      (hbelow : ∀ c place, (c, place) ∈ n.childNodes.zip (placesFrom (id + 1) n.childNodes) →
        Mirrors R f (some id) place c) : Mirrors R f parent id n

/-- The trees of nodes for rule nodes one behind the other. -/
def MirrorsAll (R : ParseNode → Descriptor → List Slot → Prop) (f : Forest) (parent : Option Nat)
    (start : Nat) (cs : List ParseNode) : Prop :=
  ∀ c place, (c, place) ∈ cs.zip (placesFrom start cs) → f.Mirrors R parent place c

theorem mirrorsAll_nil : f.MirrorsAll R parent start [] := by simp [MirrorsAll]

theorem mirrorsAll_cons : f.MirrorsAll R parent start (c :: cs) ↔
    f.Mirrors R parent start c ∧ f.MirrorsAll R parent (start + c.nodeCount) cs := by
  simp [MirrorsAll, placesFrom, or_imp, forall_and]

theorem mirrorsAll_append {ds : List ParseNode} : f.MirrorsAll R parent start (cs ++ ds) ↔
    f.MirrorsAll R parent start cs ∧ f.MirrorsAll R parent (start + countOf cs) ds := by
  induction cs generalizing start with
  | nil => simp [mirrorsAll_nil, countOf]
  | cons c cs ih => simp [mirrorsAll_cons, ih, countOf_cons, and_assoc, Nat.add_assoc]

theorem placesFrom_append (start : Nat) (cs ds : List ParseNode) :
    placesFrom start (cs ++ ds) = placesFrom start cs ++ placesFrom (start + countOf cs) ds := by
  induction cs generalizing start with
  | nil => simp [placesFrom, countOf]
  | cons c cs ih => simp [placesFrom, ih, countOf_cons, Nat.add_assoc]

theorem lt_of_mem_placesFrom {x : Nat} (h : x ∈ placesFrom start cs) : x < start + countOf cs := by
  induction cs generalizing start with
  | nil => simp [placesFrom] at h
  | cons c cs ih =>
    have hcount := countOf_cons c cs
    have hself := c.nodeCount_eq
    rcases List.mem_cons.mp h with rfl | h
    · omega
    · have hrest := ih h
      omega

theorem bounds_of_mem_zip {place : Nat} (h : (c, place) ∈ cs.zip (placesFrom start cs)) :
    start ≤ place ∧ place + c.nodeCount ≤ start + countOf cs := by
  induction cs generalizing start with
  | nil => simp at h
  | cons d cs ih =>
    simp only [placesFrom, List.zip_cons_cons, List.mem_cons, Prod.mk.injEq] at h
    have hcount := countOf_cons d cs
    rcases h with ⟨rfl, rfl⟩ | h
    · omega
    · have hrest := ih h
      omega

theorem Mirrors.alike (h : f.Mirrors R parent id n)
    (hg : ∀ j m, id ≤ j → j < id + n.nodeCount → f.node? j = some m →
      ∃ m', g.node? j = some m' ∧ m.Alike m') : g.Mirrors R parent id n := by
  induction h with
  | @intro parent id n m hnode hm hchildren _ ih =>
    have hcount := n.nodeCount_eq
    obtain ⟨m', hself, ha⟩ := hg id m (Nat.le_refl id) (by omega) hnode
    refine .intro hself (hm.alike ha) (ha.children.trans hchildren) fun c place hmem =>
      ih c place hmem ?_
    intro j k hj hlt
    have hb := bounds_of_mem_zip hmem
    exact hg j k (by omega) (by omega)

theorem Mirrors.congr (h : f.Mirrors R parent id n)
    (hg : ∀ j, id ≤ j → j < id + n.nodeCount → g.node? j = f.node? j) : g.Mirrors R parent id n :=
  h.alike fun j m hj hlt hm => ⟨m, (hg j hj hlt).trans hm, .refl m⟩

theorem MirrorsAll.congr (h : f.MirrorsAll R parent start cs)
    (hg : ∀ j, start ≤ j → j < start + countOf cs → g.node? j = f.node? j) :
    g.MirrorsAll R parent start cs := by
  intro c place hmem
  have hb := bounds_of_mem_zip hmem
  exact (h c place hmem).congr fun j hj hlt => hg j (by omega) (by omega)

theorem run_preorder_placesFrom
    (hcs : ∀ c place, (c, place) ∈ cs.zip (placesFrom start cs) → ∀ steps stack,
      Cursor.run f (c.nodeCount + steps) ⟨.preorder (place :: stack), none⟩ =
        List.range' place c.nodeCount ++ Cursor.run f steps ⟨.preorder stack, none⟩)
    (steps : Nat) (stack : List Nat) :
    Cursor.run f (countOf cs + steps) ⟨.preorder (placesFrom start cs ++ stack), none⟩ =
      List.range' start (countOf cs) ++ Cursor.run f steps ⟨.preorder stack, none⟩ := by
  induction cs generalizing start with
  | nil => simp [placesFrom, countOf]
  | cons c cs ih =>
    have hfirst := hcs c start (by simp [placesFrom])
    have hrest := @ih (start + c.nodeCount) fun d place hd => hcs d place (by simp [placesFrom, hd])
    rw [countOf_cons, Nat.add_assoc, placesFrom, List.cons_append, hfirst, hrest,
      ← List.append_assoc, List.range'_append_1]

/-- A walk takes the nodes that mirror a rule node off its stack, cell by cell. -/
theorem Mirrors.run_preorder (h : f.Mirrors R parent id n) (steps : Nat) (stack : List Nat) :
    Cursor.run f (n.nodeCount + steps) ⟨.preorder (id :: stack), none⟩ =
      List.range' id n.nodeCount ++ Cursor.run f steps ⟨.preorder stack, none⟩ := by
  induction h generalizing steps stack with
  | @intro parent id n m hnode _ hchildren _ ih =>
    have hself : f.children id = placesFrom (id + 1) n.childNodes := by
      simp [Forest.children, hnode, hchildren]
    rw [n.nodeCount_eq, Nat.add_right_comm, run_preorder_cons, hself,
      run_preorder_placesFrom ih, List.range'_succ, List.cons_append]

theorem Mirrors.walk_eq (h : f.Mirrors R parent id n) (hsize : id + n.nodeCount ≤ f.size) :
    f.walk id = List.range' id n.nodeCount := by
  have hsteps : f.weight id + f.size + 1 =
      n.nodeCount + (f.weight id + f.size + 1 - n.nodeCount) := by omega
  rw [walk, traverse, hsteps, Cursor.start, h.run_preorder, run_preorder_nil, List.append_nil]

theorem map_range'_placesFrom {α : Type} {look : Nat → α} {read : ParseNode × Option Nat → α}
    {above : Option Nat} {place : Nat}
    (hcs : ∀ c q, (c, q) ∈ cs.zip (placesFrom start cs) → (List.range' q c.nodeCount).map look =
      ((ParseTree.node c).outline above (place + (q - start))).map read) :
    (List.range' start (countOf cs)).map look = (outlines above place cs).map read := by
  induction cs generalizing start place with
  | nil => rfl
  | cons c cs ih =>
    have hfirst := hcs c start (by simp [placesFrom])
    rw [Nat.sub_self, Nat.add_zero] at hfirst
    have hrest : (List.range' (start + c.nodeCount) (countOf cs)).map look =
        (outlines above (place + c.nodeCount) cs).map read := by
      apply ih
      intro d q hd
      have hb := bounds_of_mem_zip hd
      have hplace : place + c.nodeCount + (q - (start + c.nodeCount)) = place + (q - start) := by
        omega
      rw [hplace]
      exact hcs d q (by simp [placesFrom, hd])
    rw [countOf_cons, ← List.range'_append_1, List.map_append, hfirst, hrest, outlines,
      List.map_append]

/-- The cells of a mirrored rule node, with origins and links, read as its outline. -/
theorem Mirrors.map_range' (h : f.Mirrors R parent id n) {ids : List Nat} {above : Option Nat}
    {place : Nat} (hids : ∀ i, i < n.nodeCount → ids[place + i]? = some (id + i))
    (habove : above.bind (fun i => ids[i]?) = parent) (hparent : ∀ q ∈ parent, f.contains q) :
    (List.range' id n.nodeCount).map (fun j => ((f.node? j).bind (·.origin), f.parent? j)) =
      ((ParseTree.node n).outline above place).map fun e =>
        (some (.source (.tree e.1)), e.2.bind fun i => ids[i]?) := by
  -- `ids` stays the whole list of cells, so that places of parents mean the same at every level
  induction h generalizing above place with
  | @intro parent id n m hnode hm _ _ ih =>
    have hcount := n.nodeCount_eq
    have hroot : f.parent? id = parent := by
      rw [parent?, hnode, Option.bind_some, hm.parent]
      cases parent with
      | none => rfl
      | some q => simp [hparent q rfl]
    have hbelow : (List.range' (id + 1) (countOf n.childNodes)).map
          (fun j => ((f.node? j).bind (·.origin), f.parent? j)) =
        (outlines (some place) (place + 1) n.childNodes).map fun e =>
          (some (.source (.tree e.1)), e.2.bind fun i => ids[i]?) := by
      apply map_range'_placesFrom
      intro c q hc
      have hb := bounds_of_mem_zip hc
      refine ih c q hc (fun i hi => ?_) ?_ ?_
      · have hq := hids (1 + (q - (id + 1)) + i) (by omega)
        have hl : place + (1 + (q - (id + 1)) + i) = place + 1 + (q - (id + 1)) + i := by omega
        have hr : id + (1 + (q - (id + 1)) + i) = q + i := by omega
        rw [← hl, hq, hr]
      · simpa using hids 0 (by omega)
      · simp [contains, hnode]
    rw [n.nodeCount_eq, List.range'_succ, List.map_cons, hbelow, n.outline_node, List.map_cons,
      hnode, hroot, Option.bind_some, hm.origin, habove]

/-- A walk over a mirrored rule node reads its outline. -/
theorem Mirrors.map_walk (h : f.Mirrors R none id n) (hsize : id + n.nodeCount ≤ f.size) :
    (f.walk id).map (fun j => ((f.node? j).bind (·.origin), f.parent? j)) =
      n.outline.map fun e => (some (.source (.tree e.1)), e.2.bind fun i => (f.walk id)[i]?) := by
  have hids : ∀ i, i < n.nodeCount → (f.walk id)[0 + i]? = some (id + i) := by
    intro i hi
    simp [h.walk_eq hsize, hi]
  have habove : (none : Option Nat).bind (fun i => (f.walk id)[i]?) = none := rfl
  have hread := h.map_range' hids habove (by simp)
  rwa [← h.walk_eq hsize] at hread

theorem forall₂_range'_placesFrom {Q : Nat → ParseNode → Prop}
    (hcs : ∀ c place, (c, place) ∈ cs.zip (placesFrom start cs) →
      List.Forall₂ Q (List.range' place c.nodeCount) c.preorder) :
    List.Forall₂ Q (List.range' start (countOf cs)) (cs.flatMap RuleNode.preorder) := by
  induction cs generalizing start with
  | nil => exact .nil
  | cons c cs ih =>
    have hfirst := hcs c start (by simp [placesFrom])
    have hrest := @ih (start + c.nodeCount) fun d place hd => hcs d place (by simp [placesFrom, hd])
    rw [countOf_cons, ← List.range'_append_1, List.flatMap_cons]
    exact List.rel_append hfirst hrest

/-- What holds at the root of a mirrored tree and goes from a node to those under it holds at every
cell. -/
theorem Mirrors.forall₂_range' {P : Option Nat → Nat → ParseNode → Prop}
    (h : f.Mirrors R parent id n) (hroot : P parent id n)
    (hstep : ∀ parent id n, f.Mirrors R parent id n → P parent id n →
      ∀ c place, (c, place) ∈ n.childNodes.zip (placesFrom (id + 1) n.childNodes) →
        P (some id) place c) :
    List.Forall₂ (fun j c => ∃ parent, f.Mirrors R parent j c ∧ P parent j c)
      (List.range' id n.nodeCount) n.preorder := by
  induction h with
  | @intro parent id n m hnode hm hchildren hbelow ih =>
    have hself : f.Mirrors R parent id n := .intro hnode hm hchildren hbelow
    rw [n.nodeCount_eq, List.range'_succ, n.preorder_eq]
    refine .cons ⟨parent, hself, hroot⟩ (forall₂_range'_placesFrom fun c place hmem => ?_)
    exact ih c place hmem (hstep parent id n hself hroot c place hmem)

end Forest

end Arbor
