import Arbor.Script.Kinds

/-!
Registering the kinds of the language. A registry that was new when its first node was made knows
each of them either fully or not at all, so registering one never fails, whatever the policy about
conflicts, and gives a type with exactly the declared properties.
-/
namespace Arbor

/-- The kinds that others extend. -/
def Script.baseKinds : List Kind := [Kinds.statement, Kinds.expression]

/-- A type that a kind defines, as the kind declares it. -/
structure Descriptor.Describes (d : Descriptor) (k : Kind) : Prop where
  qualifiedName : d.qualifiedName = k.qualifiedName
  properties : d.properties = k.properties
  binding : d.binding = .kind k.typeName
  supertypes : ∀ e ∈ d.supertypes, ∃ b ∈ Script.baseKinds, e.qualifiedName = b.qualifiedName

namespace Script
open Registry

/-- The kinds of nodes that a mapped program may have. -/
def nodeKinds : List Kind := Kinds.family.kinds ++ [.errorNode]

theorem eq_of_qualifiedName_eq : ∀ j ∈ nodeKinds, ∀ k ∈ nodeKinds,
    j.qualifiedName = k.qualifiedName → j = k := by decide

theorem eq_of_typeName_eq : ∀ j ∈ nodeKinds, ∀ k ∈ nodeKinds, j.typeName = k.typeName → j = k := by
  decide

theorem mergeProperties_own {k : Kind} (hk : k ∈ nodeKinds) :
    mergeProperties k.qualifiedName [] k.properties = .ok k.properties := by
  have hall : ∀ k ∈ nodeKinds,
      (mergeProperties k.qualifiedName [] k.properties).toOption = some k.properties := by decide
  have hmerge := hall k hk
  cases h : mergeProperties k.qualifiedName [] k.properties with
  | error e => simp [h, Except.toOption] at hmerge
  | ok ps => simpa [h, Except.toOption] using hmerge

theorem base_cases : ∀ b ∈ baseKinds, b ∈ nodeKinds ∧ b.properties = [] ∧
    Kinds.family.superKind? b = none := by decide

theorem superKind_cases : ∀ k ∈ Kinds.family.kinds, Kinds.family.superKind? k = none ∨
    ∃ b ∈ baseKinds, Kinds.family.superKind? k = some b := by decide

/-- A type is of a kind that nothing extends only where that kind defines it. -/
theorem isA_iff_of_describes {d : Descriptor} {j k : Kind} (hd : d.Describes j)
    (hj : j ∈ nodeKinds) (hk : k ∈ nodeKinds) (hbase : k ∉ baseKinds) :
    d.isA k.qualifiedName ↔ j = k := by
  have habove : ∀ e ∈ d.supertypes, e.qualifiedName ≠ k.qualifiedName := by
    intro e he hek
    obtain ⟨b, hb, heb⟩ := hd.supertypes e he
    obtain rfl := eq_of_qualifiedName_eq b (base_cases b hb).1 k hk (heb.symm.trans hek)
    exact hbase hb
  have hnone : d.supertypes.any (fun e => e.qualifiedName = k.qualifiedName) = false := by
    simpa using habove
  rw [Descriptor.isA, Descriptor.chain, List.any_cons, hnone, Bool.or_false, decide_eq_true_iff,
    hd.qualifiedName]
  exact ⟨eq_of_qualifiedName_eq j hj k hk, fun h => h ▸ rfl⟩

/-- The registry has the kind under its own name or leaves name and kind free. -/
def Offers (r : Registry) (k : Kind) : Prop :=
  (r.get? k.qualifiedName = none ∧ r.getKind? k = none) ∨
    ∃ d, r.get? k.qualifiedName = some d ∧ r.getKind? k = some d ∧ d.Describes k

/-- What registering kinds of the language keeps. -/
structure Serves (r : Registry) : Prop where
  offers {k} : k ∈ nodeKinds → Offers r k
  edges {c p b} : (c, p) ∈ r.graph.edges → b ∈ baseKinds → c ≠ b.qualifiedName

theorem serves_empty (policy : ConflictPolicy) : Serves (.empty policy) where
  offers _ := .inl ⟨rfl, rfl⟩
  edges h := by simp [Registry.empty] at h

section Step
variable {r : Registry} {k : Kind} {d : Descriptor}

theorem Serves.offering (hr : Serves r) (hk : k ∈ nodeKinds) (hd : d.Describes k) {r' : Registry}
    (hgraph : r'.graph = r.graph)
    (hname : ∀ q, r'.get? q = if k.qualifiedName = q then some d else r.get? q)
    (hkind : ∀ t, r'.byKind.get? t = if k.typeName = t then some d else r.byKind.get? t) :
    Serves r' where
  offers {j} hj := by
    by_cases hjk : j = k
    · subst hjk
      exact .inr ⟨d, by simp [hname], by simp [getKind?, hkind], hd⟩
    · have hq : k.qualifiedName ≠ j.qualifiedName :=
        fun h => hjk (eq_of_qualifiedName_eq j hj k hk h.symm)
      have ht : k.typeName ≠ j.typeName := fun h => hjk (eq_of_typeName_eq j hj k hk h.symm)
      have hold := hr.offers hj
      unfold Offers getKind? at hold ⊢
      rw [hname, hkind, if_neg hq, if_neg ht]
      exact hold
  edges hcp hb := hr.edges (hgraph ▸ hcp) hb

theorem Serves.store (hr : Serves r) (hk : k ∈ nodeKinds) (hd : d.Describes k) :
    Serves (r.store d) := by
  apply hr.offering hk hd
  · simp [Registry.store, indexByKind, hd.binding]
  · intro q
    simp [Registry.store, indexByKind, hd.binding, get?, hd.qualifiedName]
  · intro t
    simp [Registry.store, indexByKind, hd.binding]

theorem bind_of_serves (hr : Serves r) (hk : k ∈ nodeKinds) (parent : Option Descriptor)
    (hparent : ∀ e ∈ parent, ∃ b ∈ baseKinds, e.Describes b) :
    ∃ d r', r.bind k.qualifiedName k.properties parent (.kind k.typeName) = (.ok d, r') ∧
      d.Describes k ∧ Serves r' := by
  rcases hr.offers hk with ⟨hname, -⟩ | ⟨d, hname, hkind, hd⟩
  · have hd : Descriptor.Describes ⟨⟨r.next, k.qualifiedName, k.properties, .kind k.typeName⟩,
        (parent.map Descriptor.chain).getD []⟩ k := by
      refine ⟨rfl, rfl, rfl, fun x hx => ?_⟩
      cases parent with
      | none => simp at hx
      | some e =>
        obtain ⟨b, hb, he⟩ := hparent e rfl
        rcases List.mem_cons.mp hx with rfl | hx
        · exact ⟨b, hb, he.qualifiedName⟩
        · exact he.supertypes x hx
    exact ⟨_, _, by simp only [Registry.bind, hname], hd, hr.store hk hd⟩
  · refine ⟨d, r.indexByKind d, by simp [Registry.bind, hname, hd.binding], hd, ?_⟩
    apply hr.offering hk hd
    · simp [indexByKind, hd.binding]
    · intro q
      split
      · next h => simpa [indexByKind, hd.binding, get?, ← h] using hname
      · simp [indexByKind, hd.binding, get?]
    · intro t
      simp [indexByKind, hd.binding]

/-- A kind that extends nothing. -/
theorem registerWithin_base {family : Family} (hr : Serves r) (hk : k ∈ nodeKinds)
    (hsuper : family.superKind? k = none) (fuel : Nat) :
    ∃ d r', registerWithin family (fuel + 1) k r = (.ok d, r') ∧ d.Describes k ∧ Serves r' := by
  unfold registerWithin
  rcases hr.offers hk with ⟨-, hkind⟩ | ⟨d, -, hkind, hd⟩
  · obtain ⟨d, r', hbind, hd, hr'⟩ := bind_of_serves hr hk none (by simp)
    refine ⟨d, r', ?_, hd, hr'⟩
    rw [hkind]
    simp only [defineWith, Kind.definition, hsuper, Option.map_none, resolveParent,
      Option.getD_none, mergeProperties_own hk, hbind]
  · exact ⟨d, r, by rw [hkind], hd, hr⟩

theorem wouldCreateCycle_base (hr : Serves r) {b : Kind} (hb : b ∈ baseKinds) {q : QualifiedName}
    (hq : b.qualifiedName ≠ q) : r.graph.wouldCreateCycle q b.qualifiedName = false := by
  have hparents : r.graph.parentsOf b.qualifiedName = [] := by
    rw [InheritanceGraph.parentsOf, List.filterMap_eq_nil_iff]
    rintro ⟨c, p⟩ hcp
    simp [hr.edges hcp hb]
  simp [InheritanceGraph.wouldCreateCycle, InheritanceGraph.search, hq, hq.symm, hparents]

theorem Serves.addEdge (hr : Serves r) {q p : QualifiedName}
    (hq : ∀ b ∈ baseKinds, q ≠ b.qualifiedName) :
    Serves { r with graph := r.graph.addEdge q p } where
  offers hk := hr.offers hk
  edges {c p' b} hcp hb := by
    simp only [InheritanceGraph.addEdge] at hcp
    split at hcp
    · exact hr.edges hcp hb
    · rcases List.mem_append.mp hcp with h | h
      · exact hr.edges h hb
      · obtain ⟨rfl, -⟩ := Prod.mk.inj (List.mem_singleton.mp h)
        exact hq b hb

theorem register_of_serves (hr : Serves r) (hk : k ∈ Kinds.family.kinds) :
    ∃ d r', r.register Kinds.family k = (.ok d, r') ∧ d.Describes k ∧ Serves r' := by
  have hknown : k ∈ nodeKinds := List.mem_append_left _ hk
  rcases superKind_cases k hk with hsuper | ⟨b, hb, hsuper⟩
  · exact registerWithin_base hr hknown hsuper _
  obtain ⟨hbknown, hbprops, hbsuper⟩ := base_cases b hb
  -- what extends a base is no base, so the new edge starts at none
  have hkb : ∀ c ∈ baseKinds, k.qualifiedName ≠ c.qualifiedName := by
    intro c hc hkc
    obtain ⟨hcknown, -, hcsuper⟩ := base_cases c hc
    rw [eq_of_qualifiedName_eq k hknown c hcknown hkc, hcsuper] at hsuper
    contradiction
  unfold Registry.register registerWithin
  rcases hr.offers hknown with ⟨-, hkind⟩ | ⟨d, -, hkind, hd⟩
  · obtain ⟨e, r₁, hbase, he, hr₁⟩ := registerWithin_base (hr.addEdge (p := b.qualifiedName) hkb)
      hbknown hbsuper (Kinds.family.kinds.length - 1)
    obtain ⟨d, r₂, hbind, hd, hr₂⟩ := bind_of_serves hr₁ hknown (some e) fun x hx =>
      ⟨b, hb, Option.some.inj hx ▸ he⟩
    refine ⟨d, r₂, ?_, hd, hr₂⟩
    have hne := hkb b hb
    rw [hkind]
    simp only [defineWith, Kind.definition, hsuper, Option.map_some, resolveParent, parentIdentity,
      hne.symm, if_false, wouldCreateCycle_base hr hb hne.symm, Bool.false_eq_true]
    rw [show Kinds.family.kinds.length = Kinds.family.kinds.length - 1 + 1 from rfl, hbase]
    simp only [Except.map, Option.map_some, Option.getD_some, he.properties, hbprops,
      mergeProperties_own hknown, hbind]
  · exact ⟨d, r, by rw [hkind], hd, hr⟩

theorem register_errorNode (hr : Serves r) :
    ∃ d r', r.register .builtin .errorNode = (.ok d, r') ∧ d.Describes .errorNode ∧ Serves r' :=
  registerWithin_base hr (by decide) (by decide) _

end Step

end Script

end Arbor
