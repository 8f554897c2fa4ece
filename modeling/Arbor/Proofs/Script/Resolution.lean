import Arbor.Proofs.Transform.Mirror
import Arbor.Script.Language
import Mathlib.Data.List.Induction

/-!
Linking the uses of variables. Each step writes at most the target of one reference, so names,
types, containment and positions stay what they were before the first step; and the table of
declarations, made before it, leads to the first node that declares a name. What is reported can so
be read off the tree as it was: the uses of names that no node declares.
-/
namespace Arbor

namespace Node
variable {m m' m'' : Node} {i : Nat} {p : Property} {s : Slot}

theorem Alike.trans (h : m.Alike m') (h' : m'.Alike m'') : m.Alike m'' where
  origin := h'.origin.trans h.origin
  parent := h'.parent.trans h.parent
  pin := h'.pin.trans h.pin
  typed := h'.typed ∘ h.typed
  descriptor := h'.descriptor.trans h.descriptor
  data := h'.data.trans h.data
  children := h'.children.trans h.children

theorem flatMap_zip_set {ps : List Property} {slots : List Slot} (hp : ps[i]? = some p)
    (hk : p.isChild = false) :
    (ps.zip (slots.set i s)).flatMap (fun (p, s) => if p.isChild then s.nodes else []) =
      (ps.zip slots).flatMap fun (p, s) => if p.isChild then s.nodes else [] := by
  induction ps generalizing slots i with
  | nil => simp at hp
  | cons q ps ih =>
    cases slots with
    | nil => rfl
    | cons t slots =>
      cases i with
      | zero =>
        obtain rfl := Option.some.inj hp
        simp [hk]
      | succ i => simpa using ih hp

theorem children_setSlot (hp : m.descriptor.properties[i]? = some p) (hk : p.isChild = false) :
    (m.setSlot i s).children = m.children :=
  flatMap_zip_set hp hk

/-- A new target is all that tells the nodes apart. -/
theorem alike_setTarget {r : Reference} (hp : m.descriptor.properties[i]? = some p)
    (hk : p.kind = .reference) (hs : m.slot i = .reference r) (target : Option NodeId) :
    m.Alike (m.setSlot i (.reference { r with target })) where
  origin := rfl
  parent := rfl
  pin := rfl
  typed ht := ht.setSlot hp hk
  descriptor := rfl
  data := data_setSlot (by rw [hs]; rfl)
  children := children_setSlot hp (by simp [Property.isChild, hk])

theorem Alike.bare_slot (h : m.Alike m') (i : Nat) : (m'.slot i).bare = (m.slot i).bare := by
  have hbare : ∀ n : Node, (n.slot i).bare = n.data[i]?.getD .absent := by
    intro n
    cases hn : n.slots[i]? <;> simp [slot, Node.data, hn, Slot.bare]
  rw [hbare, hbare, h.data]

theorem Alike.declaredOf_eq (h : m.Alike m') (kind : PropertyKind) (name : String) :
    m'.declaredOf kind name = m.declaredOf kind name := by
  have hlength : m'.slots.length = m.slots.length := by
    simpa [Node.data] using congrArg List.length h.data
  simp only [declaredOf, declared, qualifiedName, h.descriptor, hlength]

end Node

namespace Forest
variable {f g k : Forest} {id : NodeId}

/-- The forests differ at most in the targets of references. -/
structure Relinked (f g : Forest) : Prop where
  size : g.size = f.size
  cell (j : NodeId) : (f.node? j = none ∧ g.node? j = none) ∨
    ∃ m m', f.node? j = some m ∧ g.node? j = some m' ∧ m.Alike m'

theorem Relinked.refl (f : Forest) : f.Relinked f where
  size := rfl
  cell j := by
    cases f.node? j with
    | none => exact .inl ⟨rfl, rfl⟩
    | some m => exact .inr ⟨m, m, rfl, rfl, .refl m⟩

theorem Relinked.trans (h : f.Relinked g) (h' : g.Relinked k) : f.Relinked k where
  size := h'.size.trans h.size
  cell j := by
    rcases h.cell j with ⟨hf, hg⟩ | ⟨m, m', hf, hg, ha⟩
    · rcases h'.cell j with ⟨-, hk⟩ | ⟨_, _, hg', -, -⟩
      · exact .inl ⟨hf, hk⟩
      · rw [hg] at hg'
        contradiction
    · rcases h'.cell j with ⟨hg', -⟩ | ⟨_, m'', hg', hk, ha'⟩
      · rw [hg] at hg'
        contradiction
      · obtain rfl := Option.some.inj (hg.symm.trans hg')
        exact .inr ⟨m, m'', hf, hk, ha.trans ha'⟩

theorem Relinked.isA_eq (h : f.Relinked g) (id : NodeId) (name : QualifiedName) :
    g.isA id name = f.isA id name := by
  rcases h.cell id with ⟨hf, hg⟩ | ⟨m, m', hf, hg, ha⟩
  · simp [isA, hf, hg]
  · simp [isA, hf, hg, ha.descriptor]

theorem Relinked.positionWithin_eq (h : f.Relinked g) (fuel : Nat) (id : NodeId) :
    g.positionWithin fuel id = f.positionWithin fuel id := by
  induction fuel generalizing id with
  | zero => rfl
  | succ fuel ih =>
    rcases h.cell id with ⟨hf, hg⟩ | ⟨m, m', hf, hg, ha⟩
    · simp [positionWithin, hf, hg]
    · simp [positionWithin, hf, hg, ha.pin, ha.origin, ih]

theorem Relinked.position_eq (h : f.Relinked g) (id : NodeId) : g.position id = f.position id := by
  rw [position, position, h.size, h.positionWithin_eq]

theorem reference_eq {m : Node} (hm : f.node? id = some m) (name : String) :
    f.reference id name = (m.declaredOf .reference name).map fun i =>
      match m.slot i with
      | .reference r => some r
      | _ => none := by
  simp only [reference, get, hm, bind, Except.bind, pure, Except.pure]
  cases m.declaredOf .reference name <;> rfl

/-- The name in a reference stays. -/
theorem Relinked.reference_name_eq (h : f.Relinked g) (id : NodeId) (name : String) :
    (g.reference id name).map (Option.map (·.name)) =
      (f.reference id name).map (Option.map (·.name)) := by
  rcases h.cell id with ⟨hf, hg⟩ | ⟨m, m', hf, hg, ha⟩
  · simp [reference, get, hf, hg, bind, Except.bind, Except.map]
  · rw [reference_eq hf, reference_eq hg, ha.declaredOf_eq]
    cases m.declaredOf .reference name with
    | error e => rfl
    | ok i =>
      have hbare := ha.bare_slot i
      dsimp only [Except.map]
      generalize m.slot i = s at hbare ⊢
      generalize m'.slot i = s' at hbare ⊢
      cases s <;> cases s' <;> simp_all [Slot.bare]

/-- Writing another target into a reference. -/
theorem setReference_of_reference {r : Reference} {name : String}
    (h : f.reference id name = .ok (some r)) (target : Option NodeId) :
    ∃ g, f.setReference id name { r with target } = .ok g ∧ f.Relinked g := by
  cases hm : f.node? id with
  | none => simp [reference, get, hm, bind, Except.bind] at h
  | some m =>
    rw [reference_eq hm] at h
    cases hi : m.declaredOf .reference name with
    | error e => simp [hi, Except.map] at h
    | ok i =>
      have hslot : m.slot i = .reference r := by
        rw [hi] at h
        cases hs : m.slot i <;> simp_all [Except.map]
      obtain ⟨p, hp, hk⟩ := Node.declaredOf_eq_ok hi
      refine ⟨f.update id (·.setSlot i (.reference { r with target })), ?_, by simp, fun j => ?_⟩
      · simp [setReference, get, hm, hi, bind, Except.bind, pure, Except.pure]
      rw [node?_update]
      split
      · next hj =>
        rw [hj, hm]
        exact .inr ⟨m, _, rfl, rfl, Node.alike_setTarget hp hk hslot target⟩
      · cases hn : f.node? j with
        | none => exact .inl ⟨rfl, rfl⟩
        | some n => exact .inr ⟨n, n, rfl, rfl, .refl n⟩

end Forest

namespace Script
variable {f g : Forest} {id : NodeId}

/-- The name that a node uses. -/
def usedName? (f : Forest) (id : NodeId) : Option String :=
  if f.isKind id Kinds.valueReference then
    match f.reference id "variable" with
    | .ok (some r) => some r.name
    | _ => none
  else none

/-- The report about a use of a name that is not in the table. -/
def unresolved (f : Forest) (declared : Table String NodeId) (id : NodeId) : Option Issue :=
  (usedName? f id).bind fun name =>
    if declared.contains name then none
    else some (.semantic ("unresolved reference: " ++ name) (f.position id))

theorem eq_semantic_of_unresolved {declared : Table String NodeId} {i : Issue}
    (h : unresolved f declared id = some i) : ∃ message place, i = .semantic message place := by
  unfold unresolved at h
  obtain ⟨name, -, hname⟩ := Option.bind_eq_some_iff.mp h
  split at hname
  · contradiction
  · exact ⟨_, _, (Option.some.inj hname).symm⟩

theorem usedName?_of_relinked (h : f.Relinked g) (id : NodeId) :
    usedName? g id = usedName? f id := by
  have hread : ∀ k : Forest, usedName? k id =
      if k.isKind id Kinds.valueReference then
        ((k.reference id "variable").map (Option.map (·.name))).toOption.join else none := by
    intro k
    unfold usedName?
    rcases k.reference id "variable" with e | (_ | r) <;> rfl
  rw [hread, hread, h.reference_name_eq, Forest.isKind, Forest.isKind, h.isA_eq]

theorem unresolved_of_relinked (h : f.Relinked g) (declared : Table String NodeId) (id : NodeId) :
    unresolved g declared id = unresolved f declared id := by
  simp only [unresolved, usedName?_of_relinked h, h.position_eq]

theorem resolveUse_eq (declared : Table String NodeId) (issues : List Issue) (f : Forest)
    (id : NodeId) :
    ∃ g, resolveUse declared (issues, f) id = (issues ++ (unresolved f declared id).toList, g) ∧
      f.Relinked g := by
  unfold resolveUse unresolved usedName?
  by_cases hk : f.isKind id Kinds.valueReference
  · rcases hr : f.reference id "variable" with e | (_ | r)
    · exact ⟨f, by simp [hk, hr], .refl f⟩
    · exact ⟨f, by simp [hk, hr], .refl f⟩
    · cases ht : declared.get? r.name with
      | none => exact ⟨f, by simp [hk, hr, ht, Table.contains], .refl f⟩
      | some target =>
        obtain ⟨g, hset, hg⟩ := Forest.setReference_of_reference hr (some target)
        exact ⟨g, by simp [hk, hr, ht, hset, Table.contains], hg⟩
  · exact ⟨f, by simp [hk], .refl f⟩

theorem foldl_resolveUse_eq (declared : Table String NodeId) (nodes : List NodeId)
    (issues : List Issue) (f : Forest) :
    ∃ g, nodes.foldl (resolveUse declared) (issues, f) =
        (issues ++ nodes.filterMap (unresolved f declared), g) ∧ f.Relinked g := by
  induction nodes generalizing issues f with
  | nil => exact ⟨f, by simp, .refl f⟩
  | cons id rest ih =>
    obtain ⟨g, hfirst, hg⟩ := resolveUse_eq declared issues f id
    obtain ⟨k, hrest, hk⟩ := ih (issues ++ (unresolved f declared id).toList) g
    refine ⟨k, ?_, hg.trans hk⟩
    have hsame : unresolved g declared = unresolved f declared :=
      funext (unresolved_of_relinked hg declared)
    rw [List.foldl_cons, hfirst, hrest, hsame]
    cases hu : unresolved f declared id <;> simp [hu]

/-- The reports are about the uses in the tree before any of them was linked. -/
theorem resolveReferences_eq (root : NodeId) (f : Forest) :
    ∃ g, resolveReferences root f =
        ((f.walk root).filterMap (unresolved f (declarations f (f.walk root))), g) ∧
      f.Relinked g := by
  obtain ⟨g, hfold, hg⟩ := foldl_resolveUse_eq (declarations f (f.walk root)) (f.walk root) [] f
  exact ⟨g, hfold, hg⟩

/-- The table leads to the first node that declares a name. -/
theorem get?_declarations (f : Forest) (nodes : List NodeId) (name : String) :
    (declarations f nodes).get? name = nodes.find? fun id => declaredName? f id = some name := by
  unfold declarations
  induction nodes using List.reverseRecOn with
  | nil => rfl
  | append_singleton nodes id ih =>
    rw [List.foldl_append, List.foldl_cons, List.foldl_nil, List.find?_append, ← ih]
    generalize nodes.foldl _ _ = table
    cases hd : declaredName? f id with
    | none => simp [hd]
    | some other =>
      by_cases hname : other = name
      · subst hname
        cases hget : table.get? other <;> simp [Table.contains, hget, hd]
      · by_cases hknown : table.contains other
        · simp [hknown, hd, hname]
        · simp [hknown, hd, hname]

theorem contains_declarations {nodes : List NodeId} {name : String} :
    (declarations f nodes).contains name ↔ ∃ id ∈ nodes, declaredName? f id = some name := by
  rw [Table.contains, get?_declarations, List.find?_isSome]
  simp

end Script

end Arbor
