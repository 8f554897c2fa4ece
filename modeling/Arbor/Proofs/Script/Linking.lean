import Arbor.Proofs.Script.Blueprints
import Mathlib.Data.List.Nodup

/-!
What linking makes of a tree, to the last cell. Every node that uses a name gets the first node that
declares it as its target, and nothing else changes. Which node that is, and which uses are
reported, stands in the blueprints of the tree; so trees made by the same blueprints are linked in
the same way and give the same reports.
-/
namespace Arbor

namespace Forest
variable {f : Forest} {id : NodeId} {m : Node} {change change' : Node → Node}

theorem update_congr (hm : f.node? id = some m) (h : change m = change' m) :
    f.update id change = f.update id change' := by
  rw [update, update, hm]
  dsimp only
  rw [h]

end Forest

namespace Script
open Forest

section Cells
variable {f : Forest} {id : NodeId} {m : Node} {i : Nat} {r : Reference}

/-- The use of a variable that a node is, and the place of its reference. -/
def useOf? (m : Node) : Option (Nat × Reference) :=
  if m.descriptor.isA Kinds.valueReference.qualifiedName then
    match m.declaredOf .reference "variable" with
    | .error _ => none
    | .ok i =>
        match m.slot i with
        | .reference r => some (i, r)
        | _ => none
  else none

/-- The node with its use of a variable linked as the table tells. -/
def linked (declared : Table String NodeId) (m : Node) : Node :=
  match useOf? m with
  | none => m
  | some (i, r) =>
      match declared.get? r.name with
      | none => m
      | some target => m.setSlot i (.reference { r with target := some target })

theorem useOf?_eq_some (h : useOf? m = some (i, r)) :
    m.descriptor.isA Kinds.valueReference.qualifiedName ∧
      m.declaredOf .reference "variable" = .ok i ∧ m.slot i = .reference r := by
  unfold useOf? at h
  split at h
  · next hkind =>
    cases hi : m.declaredOf .reference "variable" with
    | error e => simp [hi] at h
    | ok j =>
      cases hs : m.slot j with
      | reference r' =>
        obtain ⟨rfl, rfl⟩ : j = i ∧ r' = r := by simpa [hi, hs] using h
        exact ⟨hkind, rfl, hs⟩
      | _ => simp [hi, hs] at h
  · cases h

theorem reference_of_useOf?_eq_none (hm : f.node? id = some m) (h : useOf? m = none)
    (hkind : m.descriptor.isA Kinds.valueReference.qualifiedName) :
    ∀ r, f.reference id "variable" ≠ .ok (some r) := by
  intro r hr
  rw [reference_eq hm] at hr
  rw [useOf?, if_pos hkind] at h
  cases hi : m.declaredOf .reference "variable" with
  | error e => simp [hi, Except.map] at hr
  | ok i => cases hs : m.slot i <;> simp_all [Except.map]

variable (declared : Table String NodeId)

/-- Resolving a use changes one cell. -/
theorem resolveUse_snd (issues : List Issue) (f : Forest) (id : NodeId) :
    (resolveUse declared (issues, f) id).2 = f.update id (linked declared) := by
  cases hm : f.node? id with
  | none => simp [resolveUse, isKind, isA, update, hm]
  | some m =>
    have hkind : f.isKind id Kinds.valueReference =
        m.descriptor.isA Kinds.valueReference.qualifiedName := by
      rw [isKind, isA, hm, Option.any_some]
    cases huse : useOf? m with
    | none =>
      rw [update_eq_self hm (by simp only [linked, huse]), resolveUse, hkind]
      have hnone := reference_of_useOf?_eq_none hm huse
      cases hk : m.descriptor.isA Kinds.valueReference.qualifiedName with
      | false => rfl
      | true =>
        rcases hr : f.reference id "variable" with e | (_ | r)
        · rfl
        · rfl
        · exact absurd hr (hnone hk r)
    | some use =>
      obtain ⟨i, r⟩ := use
      obtain ⟨hk, hi, hs⟩ := useOf?_eq_some huse
      have hread : f.reference id "variable" = .ok (some r) := by
        rw [reference_eq hm, hi]
        simp [Except.map, hs]
      rw [resolveUse, hkind, hk, hread]
      cases ht : declared.get? r.name with
      | none =>
        rw [update_eq_self hm (by simp only [linked, huse, ht])]
        simp [ht]
      | some target =>
        have hset : f.setReference id "variable" { r with target := some target } =
            .ok (f.update id (linked declared)) := by
          simp only [setReference, Forest.get, hm, hi, bind, Except.bind, pure, Except.pure]
          congr 1
          exact update_congr hm (by simp only [linked, huse, ht])
        simp [ht, hset]

theorem foldl_resolveUse_snd (nodes : List NodeId) (state : List Issue × Forest) :
    (nodes.foldl (resolveUse declared) state).2 =
      nodes.foldl (fun f id => f.update id (linked declared)) state.2 := by
  induction nodes generalizing state with
  | nil => rfl
  | cons id rest ih => rw [List.foldl_cons, List.foldl_cons, ih, resolveUse_snd]

/-- Linking a tree changes its uses of variables and nothing else. -/
theorem node?_resolveReferences {root : NodeId} (hnodup : (f.walk root).Nodup) (id : NodeId) :
    (resolveReferences root f).2.node? id =
      if id ∈ f.walk root then
        (f.node? id).map (linked (declarations f (f.walk root)))
      else f.node? id := by
  rw [resolveReferences, foldl_resolveUse_snd, node?_foldl_update]
  split
  · next hid => rw [List.count_eq_one_of_mem hnodup hid, Function.iterate_one]
  · next hid => simp [List.count_eq_zero_of_not_mem hid]

end Cells

section Numbered
variable {α β : Type} {start : Nat} {xs : List α}

theorem map_range'_eq {look : Nat → β} {read : α → β}
    (h : ∀ i x, xs[i]? = some x → look (start + i) = read x) :
    (List.range' start xs.length).map look = xs.map read := by
  apply List.ext_getElem
  · simp
  · intro i hi hi'
    rw [List.length_map] at hi'
    simpa using h i _ (List.getElem?_eq_getElem hi')

theorem find?_range'_eq {p : Nat → Bool} {q : α → Bool}
    (h : ∀ i x, xs[i]? = some x → p (start + i) = q x) :
    (List.range' start xs.length).find? p = (xs.findIdx? q).map (start + ·) := by
  induction xs generalizing start with
  | nil => rfl
  | cons x xs ih =>
    have hfirst : p start = q x := h 0 x rfl
    have hrest : (List.range' (start + 1) xs.length).find? p =
        (xs.findIdx? q).map (start + 1 + ·) := by
      apply ih
      intro i y hy
      rw [Nat.add_assoc, Nat.add_comm 1]
      exact h (i + 1) y hy
    rw [List.length_cons, List.range'_succ, List.find?_cons, List.findIdx?_cons, hfirst, hrest]
    cases q x with
    | true => rfl
    | false =>
      simp only [Bool.false_eq_true, if_false, Option.map_map]
      congr 1
      funext i
      simp only [Function.comp_apply]
      omega

end Numbered

namespace Blueprint

/-- The name that a node made by the blueprint declares. -/
def declared? (b : Blueprint) : Option String :=
  if b.kind = Kinds.setStatement ∨ b.kind = Kinds.inputDeclaration then
    match b.slots.head? with
    | some (.value v) => v.asString
    | _ => none
  else none

/-- The use of a variable that a node made by the blueprint is. -/
def use? (b : Blueprint) : Option Reference :=
  if b.kind = Kinds.valueReference then
    match b.slots.head? with
    | some (.reference r) => some r
    | _ => none
  else none

/-- The first blueprint of a node that declares the name. -/
def declarer (plan : List Blueprint) (name : String) : Option Nat :=
  plan.findIdx? (·.declared? = some name)

/-- The report about a use of a name that nothing declares. -/
def report (plan : List Blueprint) (b : Blueprint) : Option Issue :=
  b.use?.bind fun r =>
    if (declarer plan r.name).isSome then none
    else some (.semantic ("unresolved reference: " ++ r.name) (some b.source.position))

/-- The blueprint with its use of a variable linked. -/
def linked (plan : List Blueprint) (b : Blueprint) : Blueprint :=
  match b.use? with
  | none => b
  | some r =>
      match declarer plan r.name with
      | none => b
      | some i => { b with slots := b.slots.set 0 (.reference { r with target := some i }) }

end Blueprint

section Names
variable {f : Forest} {id start : Nat} {m : Node} {b : Blueprint} {p : Property}

theorem nodup_nodeKinds : ∀ k ∈ nodeKinds, (k.properties.map (·.name)).Nodup := by decide

theorem MadeBy.names (hm : MadeBy start b m) (hk : b.kind ∈ nodeKinds) :
    (m.descriptor.properties.map (·.name)).Nodup :=
  hm.describes.properties ▸ nodup_nodeKinds _ hk

theorem MadeBy.slot_zero (hm : MadeBy start b m) :
    m.slot 0 = (b.slots.head?.getD .absent).shift start := by
  rw [Node.slot, hm.slots]
  cases b.slots <;> rfl

theorem MadeBy.declaredOf_zero (hm : MadeBy start b m) (hk : b.kind ∈ nodeKinds)
    (hp : b.kind.properties[0]? = some p) : m.declaredOf p.kind p.name = .ok 0 :=
  Node.declaredOf_of_getElem? hm.typed (hm.names hk) (hm.describes.properties ▸ hp)

theorem MadeBy.property_zero (hm : MadeBy start b m) (hk : b.kind ∈ nodeKinds)
    (hnode : f.node? id = some m) (hp : b.kind.properties[0]? = some p) (hattr : p.kind = .attr) :
    f.property id p.name = .ok
      (match b.slots.head? with
        | some (.value v) => some v
        | _ => none) := by
  have hdeclared := hm.declaredOf_zero hk hp
  rw [hattr] at hdeclared
  simp only [Forest.property, Forest.get, hnode, hdeclared, bind, Except.bind, pure, Except.pure,
    hm.slot_zero]
  rcases b.slots.head? with _ | (_ | _ | _ | _ | _) <;> rfl

theorem MadeBy.declaredName?_eq (hm : MadeBy start b m) (hk : b.kind ∈ nodeKinds)
    (hnode : f.node? id = some m) : declaredName? f id = b.declared? := by
  have hset := isKind_of_describes (k := Kinds.setStatement) hnode hm.describes hk (by decide)
  have hinput := isKind_of_describes (k := Kinds.inputDeclaration) hnode hm.describes hk (by decide)
  rw [declaredName?, Blueprint.declared?, hset, hinput]
  by_cases hs : b.kind = Kinds.setStatement
  · have hread := hm.property_zero hk hnode (p := .attr "variable" "string") (by rw [hs]; rfl) rfl
    simp only [hs, decide_true, if_true, true_or]
    rw [show f.property id "variable" = _ from hread]
    rcases b.slots.head? with _ | (_ | _ | _ | _ | _) <;> rfl
  · by_cases hi : b.kind = Kinds.inputDeclaration
    · have hread := hm.property_zero hk hnode (p := .attr "name" "string") (by rw [hi]; rfl) rfl
      simp only [hi, decide_true, if_true, or_true]
      rw [show f.property id "name" = _ from hread]
      rcases b.slots.head? with _ | (_ | _ | _ | _ | _) <;> rfl
    · simp [hs, hi]

theorem useOf?_eq_none_of_ne (hm : MadeBy start b m) (hk : b.kind ∈ nodeKinds)
    (hv : b.kind ≠ Kinds.valueReference) : useOf? m = none := by
  have hisA := isA_iff_of_describes hm.describes hk (k := Kinds.valueReference) (by decide)
    (by decide)
  rw [useOf?, if_neg fun h => hv (hisA.mp h)]

/-- A node is the use of a variable that its blueprint tells. -/
theorem MadeBy.useOf?_eq (hm : MadeBy start b m) (hk : b.kind ∈ nodeKinds) :
    useOf? m = b.use?.map fun r => (0, { r with target := r.target.map (start + ·) }) := by
  rw [Blueprint.use?]
  by_cases hv : b.kind = Kinds.valueReference
  · have hisA := isA_iff_of_describes hm.describes hk (k := Kinds.valueReference) (by decide)
      (by decide)
    have hindex := hm.declaredOf_zero hk (p := .reference "variable" "simple.Statement")
      (by rw [hv]; rfl)
    rw [if_pos hv, useOf?, if_pos (hisA.mpr hv),
      show m.declaredOf .reference "variable" = .ok 0 from hindex]
    dsimp only
    rw [hm.slot_zero]
    rcases b.slots.head? with _ | (_ | _ | _ | _ | _) <;> rfl
  · rw [if_neg hv, useOf?_eq_none_of_ne hm hk hv]
    rfl

theorem usedName?_eq_useOf? (hnode : f.node? id = some m) :
    usedName? f id = (useOf? m).map (·.2.name) := by
  rw [usedName?, useOf?, isKind, isA, hnode, Option.any_some, reference_eq hnode]
  split
  · cases m.declaredOf .reference "variable" with
    | error e => rfl
    | ok i =>
      dsimp only [Except.map]
      cases m.slot i <;> rfl
  · rfl

end Names

section Trees
variable {f : Forest} {start : Nat} {plan : List Blueprint}
  (hplan : ∀ b ∈ plan, b.Sound plan.length) (h : Carries f start plan)
include hplan h

theorem Carries.get?_declarations (name : String) :
    (declarations f (List.range' start plan.length)).get? name =
      (Blueprint.declarer plan name).map (start + ·) := by
  rw [Script.get?_declarations, Blueprint.declarer]
  apply find?_range'_eq
  intro i b hb
  obtain ⟨m, hnode, hm⟩ := h i b hb
  rw [hm.declaredName?_eq (hplan b (List.mem_of_getElem? hb)).kind hnode]

/-- What is reported stands in the blueprints. -/
theorem Carries.filterMap_unresolved :
    (List.range' start plan.length).filterMap
        (unresolved f (declarations f (List.range' start plan.length))) =
      plan.filterMap (Blueprint.report plan) := by
  have hmap : (List.range' start plan.length).map
      (unresolved f (declarations f (List.range' start plan.length))) =
        plan.map (Blueprint.report plan) := by
    apply map_range'_eq
    intro i b hb
    obtain ⟨m, hnode, hm⟩ := h i b hb
    have hk := (hplan b (List.mem_of_getElem? hb)).kind
    simp only [unresolved, Blueprint.report, usedName?_eq_useOf? hnode, hm.useOf?_eq hk,
      hm.position_eq hnode, Table.contains, h.get?_declarations hplan, Option.isSome_map,
      Option.map_map, Option.bind_map]
    rfl
  simpa [List.filterMap_map] using congrArg (List.filterMap id) hmap

/-- A linked node is made by the linked blueprint. -/
theorem Carries.madeBy_linked {b : Blueprint} {m : Node} (hk : b.kind ∈ nodeKinds)
    (hm : MadeBy start b m) :
    MadeBy start (b.linked plan)
      (linked (declarations f (List.range' start plan.length)) m) := by
  rw [linked, Blueprint.linked, hm.useOf?_eq hk]
  cases huse : b.use? with
  | none => exact hm
  | some r =>
    simp only [Option.map_some, h.get?_declarations hplan]
    cases Blueprint.declarer plan r.name with
    | none => exact hm
    | some i =>
      have hvalue : b.kind = Kinds.valueReference := by
        by_contra hv
        simp [Blueprint.use?, hv] at huse
      have hp : m.descriptor.properties[0]? =
          some (.reference "variable" "simple.Statement") := by
        rw [hm.describes.properties, hvalue]
        rfl
      exact {
        describes := hm.describes
        typed := hm.typed.setSlot hp rfl
        slots := by
          show m.slots.set 0 _ = _
          rw [hm.slots, List.map_set]
          rfl
        parent := hm.parent
        origin := hm.origin
        pin := hm.pin }

/-- Linking a tree links its blueprints. -/
theorem Carries.resolveReferences (hwalk : f.walk start = List.range' start plan.length) :
    Carries (resolveReferences start f).2 start (plan.map (·.linked plan)) := by
  intro i _ hlinked
  obtain ⟨b, hb, rfl⟩ : ∃ b, plan[i]? = some b ∧ b.linked plan = _ := by simpa using hlinked
  obtain ⟨m, hnode, hm⟩ := h i b hb
  have hi := (List.getElem?_eq_some_iff.mp hb).1
  have hmem : start + i ∈ f.walk start := by
    rw [hwalk, List.mem_range'_1]
    omega
  have hnodup : (f.walk start).Nodup := hwalk ▸ List.nodup_range'
  refine ⟨_, ?_, h.madeBy_linked hplan (hplan b (List.mem_of_getElem? hb)).kind hm⟩
  rw [node?_resolveReferences hnodup, if_pos hmem, hnode, hwalk]
  rfl

omit h in
/-- Links that are set lead into the tree. -/
theorem closed_linked {b : Blueprint} (hb : b ∈ plan) : (b.linked plan).Closed plan.length := by
  have hsound := hplan b hb
  have hbefore : b.Closed plan.length :=
    ⟨hsound.parent, fun r hr i hi => by simp [hsound.unlinked r hr] at hi⟩
  rw [Blueprint.linked]
  split
  · exact hbefore
  · next r _ =>
    split
    · exact hbefore
    · next i hfind =>
      refine ⟨hsound.parent, fun r' hr' k hk => ?_⟩
      rcases List.mem_or_eq_of_mem_set hr' with hr' | heq
      · exact hbefore.target r' hr' k hk
      · obtain rfl := Slot.reference.inj heq
        obtain rfl := Option.some.inj hk
        exact (List.findIdx?_eq_some_iff_getElem.mp hfind).1

end Trees

end Script

end Arbor
