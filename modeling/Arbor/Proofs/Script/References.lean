import Arbor.Proofs.Script.Independence
import Arbor.Proofs.Script.Markers

/-!
References after linking. A node of the tree introduces a name, uses one, or has nothing to do with
names, whatever errors the text has. Linking writes only targets, and those from a table that was
made before; so in the finished tree every use refers to the first node that introduces its name,
and the semantic issues are those of the uses that refer to none.
-/
namespace Arbor

namespace Forest
variable {f g : Forest} {id : NodeId} {m : Node}

theorem property_eq (hm : f.node? id = some m) (name : String) :
    f.property id name = (m.declaredOf .attr name).map fun i =>
      match m.slot i with
      | .value v => some v
      | _ => none := by
  simp only [property, get, hm, bind, Except.bind, pure, Except.pure]
  cases m.declaredOf .attr name <;> rfl

/-- Linking leaves attributes as they are. -/
theorem Relinked.property_eq (h : f.Relinked g) (id : NodeId) (name : String) :
    g.property id name = f.property id name := by
  rcases h.cell id with ⟨hf, hg⟩ | ⟨m, m', hf, hg, ha⟩
  · simp [property, get, hf, hg, bind, Except.bind]
  · rw [Forest.property_eq hf, Forest.property_eq hg, ha.declaredOf_eq]
    congr 1
    funext i
    have hbare := ha.bare_slot i
    generalize m.slot i = s at hbare ⊢
    generalize m'.slot i = s' at hbare ⊢
    cases s <;> cases s' <;> simp_all [Slot.bare]

end Forest

namespace Script
open Transformer Mapping

/-- The node is a statement that sets the variable, or asks for its value. -/
inductive Introduces (f : Forest) (id : NodeId) (x : String) : Prop
  | set (hkind : f.isKind id Kinds.setStatement)
      (hname : f.property id "variable" = .ok (some (.string x)))
  | input (hkind : f.isKind id Kinds.inputDeclaration)
      (hname : f.property id "name" = .ok (some (.string x)))

/-- What the name stands for among nodes in their order: the first that introduces it, and nothing
where none does. -/
inductive Means (f : Forest) (nodes : List NodeId) (x : String) : Option NodeId → Prop
  | first {before after : List NodeId} {id : NodeId} (hnodes : nodes = before ++ id :: after)
      (hid : Introduces f id x) (hbefore : ∀ j ∈ before, ¬ Introduces f j x) :
      Means f nodes x (some id)
  | nothing (hnone : ∀ j ∈ nodes, ¬ Introduces f j x) : Means f nodes x none

/-- The report about the use of a variable that refers to nothing. -/
def dangling (f : Forest) (id : NodeId) : Option Issue :=
  if f.isKind id Kinds.valueReference then
    match f.reference id "variable" with
    | .ok (some r) =>
        if f.target? r = none then
          some (.semantic ("unresolved reference: " ++ r.name) (f.position id))
        else none
    | _ => none
  else none

section Kinds

/-- What the kind of a node and the first of its data have to do with names. -/
inductive Telling (d : Descriptor) (data : List Slot) : Prop
  | set {x : String} (hd : d.Describes Kinds.setStatement)
      (hdata : data[0]? = some (.value (.string x)))
  | input {x : String} (hd : d.Describes Kinds.inputDeclaration)
      (hdata : data[0]? = some (.value (.string x)))
  | use {x : String} (hd : d.Describes Kinds.valueReference)
      (hdata : data[0]? = some (.reference ⟨x, none⟩))
  | silent {k : Kind} (hk : k ∈ nodeKinds) (hd : d.Describes k)
      (hother : k ∉ [Kinds.valueReference, Kinds.setStatement, Kinds.inputDeclaration])

variable {source : String} {n : ParseNode} {d : Descriptor} {data : List Slot}

theorem telling_of_error (hd : d.Describes .errorNode) : Telling d data :=
  .silent (by decide) hd (by decide)

/-- A rule node of any text, also one that breaks off, is made into a node of such a kind. -/
theorem telling_of_depicts (h : lenient.Depicts Serves n d data) (hn : Formed source n) :
    Telling d data := by
  by_cases hplain : n.rule ∈ [Rule.compilationUnit, Rule.displayStatement, Rule.sumExpression,
      Rule.intLiteral, Rule.decLiteral, Rule.stringLiteral]
  · obtain ⟨k, hk, hother, hd⟩ := exists_describes_of_plain h hplain
    exact .silent hk hd hother
  · have hnamed : n.rule = Rule.setStatement ∨ n.rule = Rule.inputDeclaration ∨
        n.rule = Rule.valueReference := by
      have hrule := hn.rule_mem
      simp only [statementRules, operandRules, List.mem_cons, List.not_mem_nil, or_false] at *
      tauto
    rcases hnamed with hrule | hrule | hrule
    · cases hname : n.tokenOf? identifier with
      | some x =>
        obtain ⟨hd, hdata⟩ := portrait_setStatement h hrule hname
        exact .set hd (by rw [hdata]; rfl)
      | none =>
        exact telling_of_error <| depicts_of_fails h (by rw [hrule]; rfl) rfl fun _ =>
          fails_setStatement hname
    · by_cases hmissing : n.tokenOf? identifier = none ∨ typeKeywords.findSome? n.tokenOf? = none
      · exact telling_of_error <| depicts_of_fails h (by rw [hrule]; rfl) rfl fun _ =>
          fails_inputDeclaration hmissing
      · rw [not_or] at hmissing
        obtain ⟨x, hname⟩ := Option.ne_none_iff_exists'.mp hmissing.1
        obtain ⟨y, htype⟩ := Option.ne_none_iff_exists'.mp hmissing.2
        obtain ⟨hd, hdata⟩ := portrait_inputDeclaration h hrule hname htype
        exact .input hd (by rw [hdata]; rfl)
    · obtain ⟨hd, hdata⟩ := portrait_valueReference h hrule
      exact .use hd (by rw [hdata]; rfl)

end Kinds

section Names
variable {f g : Forest} {id : NodeId} {m : Node} {parent : Option Nat} {n : ParseNode} {x : String}
  {R : ParseNode → Descriptor → List Slot → Prop} {k : Kind} {nodes : List NodeId}

theorem introduces_iff (hnode : f.node? id = some m) (hd : m.descriptor.Describes k)
    (hk : k ∈ nodeKinds) : Introduces f id x ↔
      (k = Kinds.setStatement ∧ f.property id "variable" = .ok (some (.string x))) ∨
      (k = Kinds.inputDeclaration ∧ f.property id "name" = .ok (some (.string x))) := by
  have hset : f.isKind id Kinds.setStatement = decide (k = Kinds.setStatement) :=
    isKind_of_describes hnode hd hk (by decide)
  have hinput : f.isKind id Kinds.inputDeclaration = decide (k = Kinds.inputDeclaration) :=
    isKind_of_describes hnode hd hk (by decide)
  constructor
  · rintro (⟨hkind, hname⟩ | ⟨hkind, hname⟩)
    · exact .inl ⟨of_decide_eq_true (hset ▸ hkind), hname⟩
    · exact .inr ⟨of_decide_eq_true (hinput ▸ hkind), hname⟩
  · rintro (⟨rfl, hname⟩ | ⟨rfl, hname⟩)
    · exact .set (hset.trans (decide_eq_true rfl)) hname
    · exact .input (hinput.trans (decide_eq_true rfl)) hname

/-- The names that nodes introduce are those that the table of declarations has. -/
theorem declaredName?_eq_some (hnode : f.node? id = some m) (hm : m.StandsFor R parent n)
    (ht : Telling m.descriptor m.data) : declaredName? f id = some x ↔ Introduces f id x := by
  cases ht with
  | @set y hd hdata =>
    have hread := property_of_data (p := .attr "variable" "string") hnode hm
      (by rw [hd.properties]; rfl) rfl hdata
    rw [introduces_iff hnode hd (by decide), declaredName?_of_set hnode hd hread,
      show f.property id "variable" = _ from hread]
    simp +decide
  | @input y hd hdata =>
    have hread := property_of_data (p := .attr "name" "string") hnode hm
      (by rw [hd.properties]; rfl) rfl hdata
    rw [introduces_iff hnode hd (by decide), declaredName?_of_input hnode hd hread,
      show f.property id "name" = _ from hread]
    simp +decide
  | use hd _ =>
    rw [introduces_iff hnode hd (by decide), declaredName?_eq_none hnode hd (by decide) (by decide)
      (by decide)]
    simp +decide
  | silent hk hd hother =>
    simp only [List.mem_cons, List.not_mem_nil, or_false, not_or] at hother
    rw [introduces_iff hnode hd hk, declaredName?_eq_none hnode hd hk hother.2.1 hother.2.2]
    simp [hother]

theorem declaredName?_of_relinked (h : f.Relinked g) (id : NodeId) :
    declaredName? g id = declaredName? f id := by
  simp only [declaredName?, Forest.isKind, h.isA_eq, h.property_eq]
  rfl

theorem means_find? (h : ∀ id ∈ nodes, declaredName? f id = some x ↔ Introduces f id x) :
    Means f nodes x (nodes.find? fun id => declaredName? f id = some x) := by
  cases hfind : nodes.find? fun id => declaredName? f id = some x with
  | none =>
    rw [List.find?_eq_none] at hfind
    exact .nothing fun j hj hintroduces => by simpa [(h j hj).mpr hintroduces] using hfind j hj
  | some id =>
    obtain ⟨hid, before, after, rfl, hbefore⟩ := List.find?_eq_some_iff_append.mp hfind
    refine .first rfl ((h id (by simp)).mp (by simpa using hid)) fun j hj hintroduces => ?_
    simpa [(h j (by simp [hj])).mpr hintroduces] using hbefore j hj

end Names

section Uses
variable {f : Forest} {id : NodeId} {m : Node} {parent : Option Nat} {n : ParseNode} {x : String}
  {R : ParseNode → Descriptor → List Slot → Prop} {i : Nat}

theorem exists_name_of_use (hnode : f.node? id = some m) (ht : Telling m.descriptor m.data)
    (hkind : f.isKind id Kinds.valueReference) :
    ∃ x, m.descriptor.Describes Kinds.valueReference ∧
      m.data[0]? = some (.reference ⟨x, none⟩) := by
  have hnot : ∀ k ∈ nodeKinds, k ≠ Kinds.valueReference → ¬ m.descriptor.Describes k := by
    intro k hk hne hd
    rw [isKind_of_describes hnode hd hk (by decide)] at hkind
    exact hne (of_decide_eq_true hkind)
  cases ht with
  | set hd _ => exact absurd hd (hnot _ (by decide) (by decide))
  | input hd _ => exact absurd hd (hnot _ (by decide) (by decide))
  | @use x hd hdata => exact ⟨x, hd, hdata⟩
  | silent hk hd hother =>
    exact absurd hd (hnot _ hk fun hsame => hother (hsame ▸ List.mem_cons_self))

/-- A node that uses a name refers to nothing when it is mapped. -/
theorem useOf?_of_data (hm : m.StandsFor R parent n) (ha : lenient.Arranged m)
    (hd : m.descriptor.Describes Kinds.valueReference)
    (hdata : m.data[0]? = some (.reference ⟨x, none⟩)) : useOf? m = some (0, ⟨x, none⟩) := by
  have hisA := (isA_iff_of_describes hd (k := Kinds.valueReference) (by decide) (by decide)
    (by decide)).mpr rfl
  have hdeclared : m.declaredOf .reference "variable" = .ok 0 :=
    Node.declaredOf_of_getElem? (p := .reference "variable" "simple.Statement") hm.typed hm.names
      (by rw [hd.properties]; rfl)
  have hslot : m.slot 0 = .reference ⟨x, none⟩ := by
    obtain ⟨s, hs, hbare⟩ : ∃ s, m.slots[0]? = some s ∧ s.bare = .reference ⟨x, none⟩ := by
      simpa [Node.data] using hdata
    have hsame : s.bare = s := by
      apply ha.bare s (List.mem_of_getElem? hs)
      cases s <;> simp_all [Slot.bare, Slot.nodes]
    rw [Node.slot, hs, Option.getD_some, ← hsame, hbare]
  rw [useOf?, if_pos hisA, hdeclared]
  simp only [hslot]

/-- The reference of a linked use is what the table has for its name. -/
theorem reference_linked {declared : Table String NodeId}
    (hnode : f.node? id = some (linked declared m)) (huse : useOf? m = some (i, ⟨x, none⟩)) :
    f.reference id "variable" = .ok (some ⟨x, declared.get? x⟩) := by
  obtain ⟨-, hi, hs⟩ := useOf?_eq_some huse
  obtain ⟨p, hp, hk⟩ := Node.declaredOf_eq_ok hi
  rw [Forest.reference_eq hnode, linked, huse]
  dsimp only
  cases declared.get? x with
  | none => simp [hi, hs, Except.map]
  | some target =>
    have hrange : i < m.slots.length := by
      by_contra hout
      simp [Node.slot, List.getElem?_eq_none (Nat.not_lt.mp hout)] at hs
    have halike := Node.alike_setTarget hp hk hs (some target)
    simp only [halike.declaredOf_eq, hi, Except.map, Node.slot_setSlot hrange]

end Uses

section Texts
variable {input : String} {timed : Bool} {start : Nat} {result : ParsingResult}
  {f mapped final : Forest} {id : NodeId} {x : String}

theorem exists_telling (h : f.Mirrors (lenient.Depicts Serves) none start (treeOf input))
    (hsize : start + (treeOf input).nodeCount ≤ f.size) (hid : id ∈ f.walk start) :
    ∃ m n parent, f.node? id = some m ∧ m.StandsFor (lenient.Depicts Serves) parent n ∧
      Telling m.descriptor m.data := by
  obtain ⟨n, hn, parent, hm⟩ := exists_of_forall₂ (h.forall₂_walk hsize) hid
  obtain ⟨hnode, hstands, -, -⟩ := hm
  exact ⟨_, n, parent, hnode, hstands,
    telling_of_depicts hstands.look ((formed_treeOf input).preorder n hn)⟩

variable (h : Parses input timed start result mapped final)
include h

theorem Parses.walk_eq : mapped.walk start = final.walk start :=
  h.walk_mapped.trans h.walk_final.symm

theorem Parses.node?_final (hid : id ∈ final.walk start) : final.node? id =
    (mapped.node? id).map (Script.linked (declarations mapped (final.walk start))) := by
  have hnodup : (mapped.walk start).Nodup := h.walk_mapped ▸ List.nodup_range'
  have hnode := node?_resolveReferences hnodup id
  rwa [← h.linked, h.walk_eq, if_pos hid] at hnode

/-- What the table of declarations has for a name. -/
theorem Parses.get?_declarations (x : String) :
    (declarations mapped (final.walk start)).get? x =
      (final.walk start).find? fun id => declaredName? final id = some x := by
  rw [Script.get?_declarations]
  simp only [declaredName?_of_relinked h.relinked]

theorem Parses.means (x : String) : Means final (final.walk start) x
    ((declarations mapped (final.walk start)).get? x) := by
  rw [h.get?_declarations]
  refine means_find? fun id hid => ?_
  obtain ⟨m, n, parent, hnode, hm, ht⟩ := exists_telling h.mirrors_final h.size_final hid
  exact declaredName?_eq_some hnode hm ht

/-- Each use of a name refers to what the table has for it. -/
theorem Parses.exists_reference (hid : id ∈ final.walk start)
    (hkind : final.isKind id Kinds.valueReference) : ∃ x, final.reference id "variable" =
      .ok (some ⟨x, (declarations mapped (final.walk start)).get? x⟩) := by
  have hid' : id ∈ mapped.walk start := h.walk_eq ▸ hid
  obtain ⟨m, n, parent, hnode, hm, ht⟩ := exists_telling h.mirrors h.size hid'
  rw [Forest.isKind, h.relinked.isA_eq] at hkind
  obtain ⟨x, hd, hdata⟩ := exists_name_of_use hnode ht hkind
  have hplace : start ≤ id := by
    rw [h.walk_mapped, List.mem_range'_1] at hid'
    exact hid'.1
  have hfinal := h.node?_final hid
  rw [hnode, Option.map_some] at hfinal
  exact ⟨x, reference_linked hfinal (useOf?_of_data hm (h.arranged hplace hnode) hd hdata)⟩

/-- Nodes that the table leads to are still there. -/
theorem Parses.target?_eq (x : String) :
    final.target? ⟨x, (declarations mapped (final.walk start)).get? x⟩ =
      (declarations mapped (final.walk start)).get? x := by
  rw [Forest.target?, h.get?_declarations]
  cases hfind : (final.walk start).find? fun id => declaredName? final id = some x with
  | none => rfl
  | some id =>
    obtain ⟨m, -, -, hnode, -⟩ := exists_telling h.mirrors_final h.size_final
      (List.mem_of_find?_eq_some hfind)
    simp [Forest.contains_of_node? hnode]

theorem Parses.unresolved_eq (hid : id ∈ final.walk start) :
    unresolved mapped (declarations mapped (mapped.walk start)) id = dangling final id := by
  rw [← unresolved_of_relinked h.relinked, h.walk_eq]
  unfold unresolved usedName? dangling
  split
  · next hkind =>
    obtain ⟨x, hreference⟩ := h.exists_reference hid hkind
    simp only [hreference, Option.bind_some, h.target?_eq, Table.contains]
    by_cases hget : (declarations mapped (final.walk start)).get? x = none
    · simp [hget]
    · simp [hget, Option.isSome_iff_ne_none]
  · rfl

theorem Parses.filter_semantic : result.issues.filter (·.kind = .semantic) =
    (final.walk start).filterMap (dangling final) := by
  have hearly : (earlyIssues input).filter (·.kind = .semantic) = [] := by
    rw [List.filter_eq_nil_iff]
    intro i hi
    rcases earlyIssues_cases hi with hi | ⟨m, -, rfl | rfl⟩
    · simp [kind_of_mem_tokenize hi]
    · simp [ErrorMarker.report, Issue.syntactic]
    · simp [Issue.syntactic]
  have hlate : (mapped.walk start).filterMap
      (unresolved mapped (declarations mapped (mapped.walk start))) =
        (final.walk start).filterMap (dangling final) := by
    rw [h.walk_eq]
    exact List.filterMap_congr fun id hid => h.walk_eq ▸ h.unresolved_eq hid
  rw [h.issues, List.filter_append, hearly, List.nil_append, hlate, List.filter_eq_self]
  intro i hi
  obtain ⟨id, -, hreport⟩ := List.mem_filterMap.mp (hlate ▸ hi)
  obtain ⟨message, place, rfl⟩ := eq_semantic_of_unresolved hreport
  rfl

end Texts

/-- References are resolved exactly. For any text, after whatever jobs of the parser, each use of a
variable in the tree refers to the first node, in the order of a walk, that sets the variable or
declares an input of its name, and to nothing if there is none. The semantic issues are one error
for each use that refers to nothing, in the order of a walk, with its name and position. -/
theorem references_exact (input : String) (policy : ConflictPolicy) (f : Forest) (jobs : List Job)
    (meanwhile : Forest → Forest) :
    ∃ result root w', Job.run ⟨input, {}, meanwhile⟩ (language {})
        (Job.leave (language {}) jobs { world := ⟨.empty policy, f⟩ }) = (.ok result, w') ∧
      result.root = some root ∧ (w'.world.forest.walk root).Nodup ∧
      (∀ id ∈ w'.world.forest.walk root, w'.world.forest.isKind id Kinds.valueReference →
        ∃ r, w'.world.forest.reference id "variable" = .ok (some r) ∧
          Means w'.world.forest (w'.world.forest.walk root) r.name (w'.world.forest.target? r)) ∧
      result.issues.filter (·.kind = .semantic) =
        (w'.world.forest.walk root).filterMap (dangling w'.world.forest) := by
  obtain ⟨start, result, w', mapped, hrun, h⟩ := exists_parses_after input policy f jobs meanwhile
  refine ⟨result, start, w', hrun, h.root, h.walk_final ▸ List.nodup_range', fun id hid hkind => ?_,
    h.filter_semantic⟩
  obtain ⟨x, hreference⟩ := h.exists_reference hid hkind
  exact ⟨_, hreference, (h.target?_eq x).symm ▸ h.means x⟩

end Script

end Arbor
