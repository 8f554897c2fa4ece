import Arbor.Proofs.Forest.Pictures
import Arbor.Proofs.Script.Modes

/-!
Trees apart from where they stand. A blueprint tells a node with cells counted from the first of its
tree, so trees in different forests may be made by the same blueprints. This is so for all trees
that mirror one rule node: its constructor and the wirings of its factory decide kind and data of
the node and how many nodes each slot has, and the parts take the cells behind it in their order.
-/
namespace Arbor

/-- The slot with every cell moved on by `start`. -/
def Slot.shift (start : Nat) : Slot → Slot
  | .child i => .child (start + i)
  | .children is => .children (is.map (start + ·))
  | .reference r => .reference { r with target := r.target.map (start + ·) }
  | s => s

namespace Slot
variable {s t : Slot} {p : Property} {a b : Nat}

theorem shift_of_bare (h : s.bare = s) (start : Nat) : s.shift start = s := by
  cases s with
  | child c => cases h
  | children cs => cases h
  | reference r =>
    have hnone : r.target = none := congrArg Reference.target (reference.inj h).symm
    rw [shift, hnone, Option.map_none, ← hnone]
  | _ => rfl

/-- Slots of one property with the same data and, up to their starts, the same nodes. -/
theorem exists_shift {is : List Nat} (hs : p.Admits s) (ht : p.Admits t) (hdata : s.bare = t.bare)
    (hsbare : s.nodes = [] → s.bare = s) (htbare : t.nodes = [] → t.bare = t)
    (hsnodes : s.nodes = is.map (a + ·)) (htnodes : t.nodes = is.map (b + ·)) :
    ∃ u : Slot, s = u.shift a ∧ t = u.shift b := by
  cases is with
  | nil =>
    have hbare := hsbare hsnodes
    refine ⟨s, (shift_of_bare hbare a).symm, ?_⟩
    rw [shift_of_bare hbare, ← htbare htnodes, ← hdata, hbare]
  | cons i is =>
    cases s with
    | child c =>
      cases t with
      | child d =>
        refine ⟨.child i, ?_, ?_⟩
        · exact congrArg child (List.cons.inj hsnodes).1
        · exact congrArg child (List.cons.inj htnodes).1
      | children ds => simp_all [Property.Admits]
      | _ => cases htnodes
    | children cs =>
      cases t with
      | child d => simp_all [Property.Admits]
      | children ds =>
        exact ⟨.children (i :: is), congrArg children hsnodes, congrArg children htnodes⟩
      | _ => cases htnodes
    | _ => cases hsnodes

theorem exists_shifts {ps : List Property} {ss ts : List Slot} {places : List Nat}
    (hss : List.Forall₂ Property.Admits ps ss) (hts : List.Forall₂ Property.Admits ps ts)
    (hdata : ss.map bare = ts.map bare) (hsbare : ∀ s ∈ ss, s.nodes = [] → s.bare = s)
    (htbare : ∀ t ∈ ts, t.nodes = [] → t.bare = t)
    (hcounts : ss.map (·.nodes.length) = ts.map (·.nodes.length))
    (hsnodes : ss.flatMap nodes = places.map (a + ·))
    (htnodes : ts.flatMap nodes = places.map (b + ·)) :
    ∃ us : List Slot, ss = us.map (shift a) ∧ ts = us.map (shift b) := by
  induction hss generalizing ts places with
  | nil =>
    cases hts
    exact ⟨[], rfl, rfl⟩
  | @cons p s ps ss hs _ ih =>
    obtain _ | @⟨_, t, _, ts, ht, hts⟩ := hts
    obtain ⟨hfirst, hrest⟩ := List.cons.inj hdata
    obtain ⟨hcount, hothers⟩ := List.cons.inj hcounts
    rw [List.flatMap_cons] at hsnodes htnodes
    obtain ⟨is, places, rfl, hs₁, hs₂⟩ := List.append_eq_map_iff.mp hsnodes
    -- the first slots have the same number of nodes, so they share the first places
    have hlength : t.nodes.length = (is.map (b + ·)).length := by
      calc t.nodes.length = s.nodes.length := hcount.symm
        _ = (is.map (a + ·)).length := by rw [hs₁]
        _ = (is.map (b + ·)).length := by rw [List.length_map, List.length_map]
    rw [List.map_append] at htnodes
    obtain ⟨ht₁, ht₂⟩ := List.append_inj htnodes hlength
    obtain ⟨u, rfl, rfl⟩ :=
      exists_shift hs ht hfirst (hsbare s (by simp)) (htbare t (by simp)) hs₁.symm ht₁
    obtain ⟨us, rfl, rfl⟩ := ih hts hrest (fun s h => hsbare s (List.mem_cons_of_mem _ h))
      (fun t h => htbare t (List.mem_cons_of_mem _ h)) hothers hs₂.symm ht₂
    exact ⟨u :: us, rfl, rfl⟩

end Slot

theorem Node.map_length_nodes_eq {m m' : Node} (hm : m.Typed) (hm' : m'.Typed)
    (hproperties : m'.descriptor.properties = m.descriptor.properties)
    (h : ∀ j p, m.descriptor.properties[j]? = some p →
      (m.slot j).nodes.length = (m'.slot j).nodes.length) :
    m.slots.map (·.nodes.length) = m'.slots.map (·.nodes.length) := by
  apply List.ext_getElem
  · simp [hm.length_slots, hm'.length_slots, hproperties]
  · intro j hj hj'
    rw [List.length_map] at hj hj'
    have hp : j < m.descriptor.properties.length := by rwa [← hm.length_slots]
    have hcount := h j _ (List.getElem?_eq_getElem hp)
    simpa [Node.slot, hj, hj'] using hcount

namespace Forest
open ParseTree
variable {R : ParseNode → Descriptor → List Slot → Prop} {f g : Forest}
  {parent parent' : Option Nat} {id id' i : Nat} {n : ParseNode} {cs : List ParseNode}

theorem placesFrom_add (start place : Nat) (cs : List ParseNode) :
    placesFrom (start + place) cs = (placesFrom place cs).map (start + ·) := by
  induction cs generalizing place with
  | nil => rfl
  | cons c cs ih => rw [placesFrom, placesFrom, List.map_cons, Nat.add_assoc, ih]

/-- The tree among trees one behind the other that a cell belongs to. -/
theorem exists_zip_placesFrom (hi : i < countOf cs) :
    ∃ c offset, (∀ start, (c, start + offset) ∈ cs.zip (placesFrom start cs)) ∧ offset ≤ i ∧
      i < offset + c.nodeCount := by
  induction cs generalizing i with
  | nil => simp [countOf] at hi
  | cons c cs ih =>
    rw [countOf_cons] at hi
    by_cases hfirst : i < c.nodeCount
    · exact ⟨c, 0, fun start => by simp [placesFrom], Nat.zero_le i, by omega⟩
    · obtain ⟨d, offset, hmem, hle, hlt⟩ := ih (i := i - c.nodeCount) (by omega)
      refine ⟨d, c.nodeCount + offset, fun start => ?_, by omega, by omega⟩
      have hrest := hmem (start + c.nodeCount)
      rw [Nat.add_assoc] at hrest
      simp [placesFrom, hrest]

/-- Two trees that mirror the same rule node have nodes for the same rule nodes in corresponding
cells, under nodes in corresponding cells. -/
theorem Mirrors.paired (h : f.Mirrors R parent id n) (h' : g.Mirrors R parent' id' n)
    (hi : i < n.nodeCount) :
    ∃ c above above', f.Mirrors R above (id + i) c ∧ g.Mirrors R above' (id' + i) c ∧
      ((i = 0 ∧ above = parent ∧ above' = parent') ∨
        ∃ k < i, above = some (id + k) ∧ above' = some (id' + k)) := by
  induction h generalizing parent' id' i with
  | @intro parent id n m hnode hm hchildren hbelow ih =>
    cases i with
    | zero =>
      exact ⟨n, parent, parent', .intro hnode hm hchildren hbelow, h', .inl ⟨rfl, rfl, rfl⟩⟩
    | succ i =>
      obtain ⟨-, -, -, hbelow'⟩ := h'
      have hcount := n.nodeCount_eq
      have hparts : i < countOf n.childNodes := by omega
      obtain ⟨c, offset, hmem, hle, hlt⟩ := exists_zip_placesFrom hparts
      obtain ⟨d, above, above', hd, hd', hlinks⟩ := ih c _ (hmem _) (hbelow' c _ (hmem _))
        (i := i - offset) (by omega)
      have hcell : id + 1 + offset + (i - offset) = id + (i + 1) := by omega
      have hcell' : id' + 1 + offset + (i - offset) = id' + (i + 1) := by omega
      rw [hcell] at hd
      rw [hcell'] at hd'
      refine ⟨d, above, above', hd, hd', .inr ?_⟩
      rcases hlinks with ⟨-, habove, habove'⟩ | ⟨k, hk, habove, habove'⟩
      · exact ⟨0, Nat.succ_pos i, habove, habove'⟩
      · refine ⟨1 + offset + k, by omega, ?_, ?_⟩
        · rw [habove, Nat.add_assoc, Nat.add_assoc, ← Nat.add_assoc 1]
        · rw [habove', Nat.add_assoc, Nat.add_assoc, ← Nat.add_assoc 1]

end Forest

namespace Script
open Transformer Forest

/-- Whatever rule node it is, its nodes are all of one kind and have the same data. -/
theorem describes_unique {n : ParseNode} {d d' : Descriptor} {data data' : List Slot}
    (h : lenient.Depicts Serves n d data) (h' : lenient.Depicts Serves n d' data') :
    ∃ k ∈ nodeKinds, d.Describes k ∧ d'.Describes k ∧ data = data' := by
  cases hrefusal : lenient.refusal n with
  | some cause =>
    obtain ⟨hd, hdata⟩ := portrait_of_refusal h hrefusal
    obtain ⟨hd', hdata'⟩ := portrait_of_refusal h' hrefusal
    exact ⟨.errorNode, by decide, hd, hd', hdata.trans hdata'.symm⟩
  | none =>
    obtain ⟨f, hf, build, hconstruct, k, hk, slots, hmakes⟩ := exists_creates h hrefusal
    obtain ⟨hd, hdata⟩ := depicts_of_creates h hf hconstruct hmakes
    obtain ⟨hd', hdata'⟩ := depicts_of_creates h' hf hconstruct hmakes
    exact ⟨k, List.mem_append_left _ hk, hd, hd', hdata.trans hdata'.symm⟩

/-- A node without the place where its tree stands: cells are counted from the first of the
tree. -/
structure Blueprint where
  kind : Kind
  slots : List Slot
  parent : Option Nat
  source : ParseNode

namespace Blueprint

/-- References without targets. -/
def Unlinked (b : Blueprint) : Prop := ∀ r, .reference r ∈ b.slots → r.target = none

end Blueprint

/-- The node, in a tree from cell `start` on, is as the blueprint tells. -/
structure MadeBy (start : Nat) (b : Blueprint) (m : Node) : Prop where
  describes : m.descriptor.Describes b.kind
  typed : m.Typed
  slots : m.slots = b.slots.map (Slot.shift start)
  parent : m.parent = b.parent.map (start + ·)
  origin : m.origin = some (.source (.tree b.source))
  pin : m.pin = none

/-- The cells from `start` on are as the blueprints tell, one after the other. -/
def Carries (f : Forest) (start : Nat) (plan : List Blueprint) : Prop :=
  ∀ i b, plan[i]? = some b → ∃ m, f.node? (start + i) = some m ∧ MadeBy start b m

section Plans
variable {f g : Forest} {a b i : Nat} {n : ParseNode} {above above' : Option Nat}

/-- Nodes for one rule node, in corresponding cells and under corresponding ones, have one
blueprint. -/
theorem exists_blueprint (h : f.Mirrors (lenient.Depicts Serves) above (a + i) n)
    (h' : g.Mirrors (lenient.Depicts Serves) above' (b + i) n)
    (harranged : ∀ m, f.node? (a + i) = some m → lenient.Arranged m)
    (harranged' : ∀ m, g.node? (b + i) = some m → lenient.Arranged m) {parent : Option Nat}
    (habove : above = parent.map (a + ·)) (habove' : above' = parent.map (b + ·)) :
    ∃ bp : Blueprint, bp.kind ∈ nodeKinds ∧ bp.parent = parent ∧ bp.Unlinked ∧
      (∃ m, f.node? (a + i) = some m ∧ MadeBy a bp m) ∧
      ∃ m, g.node? (b + i) = some m ∧ MadeBy b bp m := by
  obtain ⟨hnode, hm, hchildren, -⟩ := h
  obtain ⟨hnode', hm', hchildren', -⟩ := h'
  next m m' =>
  obtain ⟨k, hk, hd, hd', hdata⟩ := describes_unique hm.look hm'.look
  have hlaid := harranged m hnode
  have hlaid' := harranged' m' hnode'
  rw [hm.typed.children_eq, Nat.add_assoc, placesFrom_add] at hchildren
  rw [hm'.typed.children_eq, Nat.add_assoc, placesFrom_add] at hchildren'
  have hproperties : m'.descriptor.properties = m.descriptor.properties :=
    hd'.properties.trans hd.properties.symm
  have hcounts : m.slots.map (·.nodes.length) = m'.slots.map (·.nodes.length) := by
    apply Node.map_length_nodes_eq hm.typed hm'.typed hproperties
    intro j p hp
    obtain ⟨f', -, -, hf', -⟩ := id hm.look
    rcases hlaid.shares hm.origin hf' with hleaf | hshares
    · -- nothing is read for an error node, and nothing is in it
      rw [hleaf] at hchildren hchildren'
      rw [Node.slot_nodes_of_contents hchildren, Node.slot_nodes_of_contents hchildren']
    · rcases hlaid'.shares hm'.origin hf' with hleaf | hshares'
      · rw [hleaf] at hchildren hchildren'
        rw [Node.slot_nodes_of_contents hchildren, Node.slot_nodes_of_contents hchildren']
      · rw [hshares j p hp, hshares' j p (hproperties ▸ hp), Node.qualifiedName, Node.qualifiedName,
          hd.qualifiedName, hd'.qualifiedName]
  obtain ⟨slots, hslots, hslots'⟩ := Slot.exists_shifts hm.typed (hproperties ▸ hm'.typed) hdata
    hlaid.bare hlaid'.bare hcounts hchildren hchildren'
  refine ⟨⟨k, slots, parent, n⟩, hk, rfl, ?_, ⟨m, hnode, ?_⟩, m', hnode', ?_⟩
  · intro r hr
    have hmem : (Slot.reference r).shift a ∈ m.slots := by
      rw [hslots]
      exact List.mem_map_of_mem hr
    have hbare := hlaid.bare _ hmem rfl
    simpa [Slot.shift, Slot.bare, eq_comm] using hbare
  · exact ⟨hd, hm.typed, hslots, hm.parent.trans habove, hm.origin, hm.pin⟩
  · exact ⟨hd', hm'.typed, hslots', hm'.parent.trans habove', hm'.origin, hm'.pin⟩

/-- A list of what there is for each number below a bound. -/
theorem exists_list {α : Type} {P : Nat → α → Prop} {count : Nat} (h : ∀ i < count, ∃ x, P i x) :
    ∃ xs : List α, xs.length = count ∧ ∀ i x, xs[i]? = some x → P i x := by
  choose look hlook using h
  refine ⟨List.ofFn fun i : Fin count => look i i.isLt, List.length_ofFn, ?_⟩
  intro i x hx
  obtain ⟨hi, rfl⟩ := List.getElem?_eq_some_iff.mp hx
  rw [List.getElem_ofFn]
  exact hlook i _

/-- What is known of the blueprints of a mapped tree. -/
structure Blueprint.Sound (count : Nat) (bp : Blueprint) : Prop where
  kind : bp.kind ∈ nodeKinds
  parent : ∀ k ∈ bp.parent, k < count
  unlinked : bp.Unlinked

/-- Two trees that mirror the same rule node are made by the same blueprints. -/
theorem exists_plan (h : f.Mirrors (lenient.Depicts Serves) none a n)
    (h' : g.Mirrors (lenient.Depicts Serves) none b n)
    (harranged : ∀ j m, a ≤ j → f.node? j = some m → lenient.Arranged m)
    (harranged' : ∀ j m, b ≤ j → g.node? j = some m → lenient.Arranged m) :
    ∃ plan : List Blueprint, plan.length = n.nodeCount ∧ (∀ bp ∈ plan, bp.Sound n.nodeCount) ∧
      Carries f a plan ∧ Carries g b plan := by
  have hcells : ∀ i < n.nodeCount, ∃ bp : Blueprint, bp.Sound n.nodeCount ∧
      (∃ m, f.node? (a + i) = some m ∧ MadeBy a bp m) ∧
      ∃ m, g.node? (b + i) = some m ∧ MadeBy b bp m := by
    intro i hi
    obtain ⟨c, above, above', hc, hc', hlinks⟩ := h.paired h' hi
    obtain ⟨parent, habove, habove', hlt⟩ : ∃ parent : Option Nat, above = parent.map (a + ·) ∧
        above' = parent.map (b + ·) ∧ ∀ k ∈ parent, k < n.nodeCount := by
      rcases hlinks with ⟨-, rfl, rfl⟩ | ⟨k, hk, rfl, rfl⟩
      · exact ⟨none, rfl, rfl, by simp⟩
      · exact ⟨some k, rfl, rfl, by simp; omega⟩
    obtain ⟨bp, hkind, hparent, hunlinked, hmade, hmade'⟩ := exists_blueprint hc hc'
      (fun m => harranged _ m (Nat.le_add_right a i))
      (fun m => harranged' _ m (Nat.le_add_right b i)) habove habove'
    exact ⟨bp, ⟨hkind, hparent ▸ hlt, hunlinked⟩, hmade, hmade'⟩
  obtain ⟨plan, hlength, hplan⟩ := exists_list hcells
  refine ⟨plan, hlength, fun bp hbp => ?_, fun i bp hbp => ?_, fun i bp hbp => ?_⟩
  · obtain ⟨i, hi⟩ := List.mem_iff_getElem?.mp hbp
    exact (hplan i bp hi).1
  · exact (hplan i bp hbp).2.1
  · exact (hplan i bp hbp).2.2

end Plans

section Pictures

/-- The place of a cell of a tree with this many nodes. -/
def within (count i : Nat) : Option Nat := if i < count then some i else none

theorem placeIn_range' (start count i : Nat) :
    placeIn (List.range' start count) (start + i) = within count i := by
  rw [placeIn, within]
  split
  · next hi =>
    rw [List.findIdx?_eq_some_iff_getElem]
    refine ⟨by simpa using hi, by simp, fun j hj => ?_⟩
    simp
    omega
  · next hi =>
    rw [List.findIdx?_eq_none_iff]
    intro x hx
    have hlt := (List.mem_range'_1.mp hx).2
    exact decide_eq_false (Nat.ne_of_lt (by omega))

namespace Blueprint

def contentOf (count : Nat) : Slot → Content
  | .absent => .absent
  | .value v => .value v
  | .child i => .child (within count i)
  | .children is => .children (is.map (within count))
  | .reference r => .reference r.name (r.target.map (within count))

/-- What a node made by the blueprint shows, in a tree with this many nodes. -/
def picture (count : Nat) (b : Blueprint) : NodePicture where
  typeName := b.kind.qualifiedName
  parent := b.parent.map (within count)
  contents := (b.kind.properties.zip b.slots).map fun (p, s) => (p.name, contentOf count s)
  position := some b.source.position
  text := some b.source.text

/-- Links lead to cells of the tree. -/
structure Closed (count : Nat) (b : Blueprint) : Prop where
  parent : ∀ i ∈ b.parent, i < count
  target : ∀ r, .reference r ∈ b.slots → ∀ i ∈ r.target, i < count

end Blueprint

variable {f : Forest} {start i : Nat} {plan : List Blueprint} {b : Blueprint} {m : Node}

theorem MadeBy.position_eq {id : NodeId} (hm : MadeBy start b m) (hnode : f.node? id = some m) :
    f.position id = some b.source.position := by
  simp [Forest.position, Forest.positionWithin, hnode, hm.pin, hm.origin]

theorem MadeBy.text_eq {id : NodeId} (hm : MadeBy start b m) (hnode : f.node? id = some m) :
    f.text id = some b.source.text := by
  simp [Forest.text, Forest.textWithin, hnode, hm.origin]

theorem Carries.contains (h : Carries f start plan) (hi : i < plan.length) :
    f.contains (start + i) := by
  obtain ⟨m, hm, -⟩ := h i _ (List.getElem?_eq_getElem hi)
  exact contains_of_node? hm

theorem Carries.filter_contains (h : Carries f start plan) {o : Option Nat}
    (ho : ∀ i ∈ o, i < plan.length) :
    (o.map (start + ·)).filter (fun id => f.contains id) = o.map (start + ·) := by
  cases o with
  | none => rfl
  | some i => simp [h.contains (ho i rfl)]

theorem Carries.contentOf_eq (h : Carries f start plan) {s : Slot}
    (htarget : ∀ r, s = .reference r → ∀ i ∈ r.target, i < plan.length) :
    f.contentOf (List.range' start plan.length) (s.shift start) =
      Blueprint.contentOf plan.length s := by
  cases s with
  | child i => exact congrArg Content.child (placeIn_range' start plan.length i)
  | children is =>
    simp only [Slot.shift, Forest.contentOf, Blueprint.contentOf, List.map_map]
    congr 1
    exact List.map_congr_left fun i _ => placeIn_range' start plan.length i
  | reference r =>
    simp only [Slot.shift, Forest.contentOf, Blueprint.contentOf, Forest.target?,
      h.filter_contains (htarget r rfl), Option.map_map]
    congr 2
    funext i
    exact placeIn_range' start plan.length i
  | _ => rfl

theorem Carries.nodePicture_eq (h : Carries f start plan) (hb : b.Closed plan.length)
    (hnode : f.node? (start + i) = some m) (hm : MadeBy start b m) :
    f.nodePicture (List.range' start plan.length) (start + i) m = b.picture plan.length := by
  have hparent : (f.parent? (start + i)).map (placeIn (List.range' start plan.length)) =
      b.parent.map (within plan.length) := by
    rw [Forest.parent?, hnode, Option.bind_some, hm.parent, h.filter_contains hb.parent,
      Option.map_map]
    congr 1
    funext k
    exact placeIn_range' start plan.length k
  have hcontents : (m.properties.map fun (p, s) =>
      (p.name, f.contentOf (List.range' start plan.length) s)) =
      (b.kind.properties.zip b.slots).map fun (p, s) =>
        (p.name, Blueprint.contentOf plan.length s) := by
    rw [Node.properties, hm.describes.properties, hm.slots, List.zip_map_right, List.map_map]
    apply List.map_congr_left
    rintro ⟨p, s⟩ hs
    have hmem := (List.of_mem_zip hs).2
    simp only [Function.comp_apply, Prod.map_apply, id_eq]
    rw [h.contentOf_eq fun r hr => hb.target r (hr ▸ hmem)]
  simp only [Forest.nodePicture, Blueprint.picture, hparent, hm.position_eq hnode,
    hm.text_eq hnode, hcontents, Node.qualifiedName, hm.describes.qualifiedName]

/-- The picture of a tree is drawn from its blueprints. -/
theorem Carries.picture_eq (h : Carries f start plan) (hplan : ∀ b ∈ plan, b.Closed plan.length)
    (hwalk : f.walk start = List.range' start plan.length) :
    f.picture start = plan.map fun b => some (b.picture plan.length) := by
  rw [Forest.picture, hwalk]
  apply List.ext_getElem
  · simp
  · intro i hi hi'
    rw [List.length_map] at hi'
    obtain ⟨m, hnode, hm⟩ := h i _ (List.getElem?_eq_getElem hi')
    have hclosed := hplan _ (List.getElem_mem hi')
    simp [hnode, h.nodePicture_eq hclosed hnode hm]

end Pictures

end Script

end Arbor
