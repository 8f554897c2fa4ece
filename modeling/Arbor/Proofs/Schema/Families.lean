import Arbor.Proofs.Schema.Reachability
import Arbor.Proofs.Schema.Requests
import Mathlib.Data.List.Nodup

/-!
Registering a kind of a family. The kinds that it extends are registered before it, except for those
that the registry has already. What the family says of a kind does not depend on any registry, and a
registry that holds just that, or nothing, for each kind of the family is left in this state. As no
kind extends itself, the way up from a kind is shorter than the family, no circle is found, and the
name of the kind is still free when its turn comes.
-/
namespace Arbor

namespace Family
variable {f : Family} {i j k : Kind} {trail : List Kind}

/-- The kind `k` extends `j`. -/
def Extends (f : Family) (k j : Kind) : Prop := f.superKind? k = some j

/-- Kinds with a type and a name each, that extend each other without circles and declare no
property twice. -/
structure Orderly (f : Family) : Prop where
  typeNames : (f.kinds.map (·.typeName)).Nodup
  names : (f.kinds.map (·.qualifiedName)).Nodup
  closed : ∀ k ∈ f.kinds, ∀ t ∈ k.extends?, ∃ j ∈ f.kinds, j.typeName = t
  acyclic : ∀ k, ¬ Relation.TransGen f.Extends k k
  properties : ∀ k ∈ f.kinds, (k.properties.map (·.name)).Nodup

theorem Extends.mem (h : f.Extends k j) : j ∈ f.kinds := by
  obtain ⟨t, -, ht⟩ := Option.bind_eq_some_iff.mp h
  exact List.mem_of_find?_eq_some ht

theorem mem_of_reflTransGen (hk : k ∈ f.kinds) (h : Relation.ReflTransGen f.Extends k j) :
    j ∈ f.kinds := by
  cases h with
  | refl => exact hk
  | tail _ hstep => exact hstep.mem

namespace Orderly

theorem eq_of_name (hf : f.Orderly) (hj : j ∈ f.kinds) (hk : k ∈ f.kinds)
    (h : j.qualifiedName = k.qualifiedName) : j = k :=
  List.inj_on_of_nodup_map hf.names hj hk h

theorem eq_of_typeName (hf : f.Orderly) (hj : j ∈ f.kinds) (hk : k ∈ f.kinds)
    (h : j.typeName = k.typeName) : j = k :=
  List.inj_on_of_nodup_map hf.typeNames hj hk h

/-- What a kind extends has another name, and so has everything above it. -/
theorem name_ne (hf : f.Orderly) (hk : k ∈ f.kinds) (hkj : f.Extends k j)
    (hji : Relation.ReflTransGen f.Extends j i) : i.qualifiedName ≠ k.qualifiedName := by
  intro hname
  obtain rfl := hf.eq_of_name (mem_of_reflTransGen hkj.mem hji) hk hname
  exact hf.acyclic i (.head' hkj hji)

end Orderly

/-- The kinds whose registration led to that of `k`. -/
structure Trail (f : Family) (trail : List Kind) (k : Kind) : Prop where
  nodup : trail.Nodup
  mem : ∀ i ∈ trail, i ∈ f.kinds
  leads : ∀ i ∈ trail, Relation.TransGen f.Extends i k

theorem Trail.nodup_cons (hf : f.Orderly) (h : f.Trail trail k) : (k :: trail).Nodup :=
  List.nodup_cons.mpr ⟨fun hk => hf.acyclic k (h.leads k hk), h.nodup⟩

/-- Circles being absent, a trail has no more kinds than the family. -/
theorem Trail.length_lt (hf : f.Orderly) (hk : k ∈ f.kinds) (h : f.Trail trail k) :
    trail.length < f.kinds.length := by
  have hsub : k :: trail ⊆ f.kinds := List.cons_subset.mpr ⟨hk, h.mem⟩
  exact (h.nodup_cons hf).length_le_of_subset hsub

theorem Trail.cons (hf : f.Orderly) (hk : k ∈ f.kinds) (h : f.Trail trail k)
    (hkj : f.Extends k j) : f.Trail (k :: trail) j where
  nodup := h.nodup_cons hf
  mem i hi := by
    rcases List.mem_cons.mp hi with rfl | hi
    · exact hk
    · exact h.mem i hi
  leads i hi := by
    rcases List.mem_cons.mp hi with rfl | hi
    · exact .single hkj
    · exact (h.leads i hi).tail hkj

/-- What the family says of the type of a kind: the properties, and the names of the supertypes. -/
inductive Shape (f : Family) : Kind → List Property → List QualifiedName → Prop where
  | root {k : Kind} {properties : List Property} (top : f.superKind? k = none)
      (merged : mergeProperties k.qualifiedName [] k.properties = .ok properties) :
      Shape f k properties []
  | under {k j : Kind} {inherited properties : List Property} {above : List QualifiedName}
      (step : f.Extends k j) (super : Shape f j inherited above)
      (merged : mergeProperties k.qualifiedName inherited k.properties = .ok properties) :
      Shape f k properties (j.qualifiedName :: above)

theorem Shape.unique {ps qs : List Property} {above above' : List QualifiedName}
    (h : f.Shape k ps above) (h' : f.Shape k qs above') : ps = qs ∧ above = above' := by
  induction h generalizing qs above' with
  | root top merged =>
    cases h' with
    | root top' merged' => exact ⟨Except.ok.inj (merged.symm.trans merged'), rfl⟩
    | under step super merged' => cases top.symm.trans step
  | under step super merged ih =>
    cases h' with
    | root top merged' => cases top.symm.trans step
    | under step' super' merged' =>
      obtain rfl := Option.some.inj (step.symm.trans step')
      obtain ⟨rfl, rfl⟩ := ih super'
      exact ⟨Except.ok.inj (merged.symm.trans merged'), rfl⟩

/-- A number that gets smaller with each extension rules out circles. -/
theorem acyclic_of_rank (rank : Kind → Nat)
    (hrank : ∀ k ∈ f.kinds, ∀ j, f.Extends k j → rank j < rank k) (k : Kind) :
    ¬ Relation.TransGen f.Extends k k := by
  have hless : ∀ j, k ∈ f.kinds → Relation.TransGen f.Extends k j → rank j < rank k := by
    intro j hk hkj
    induction hkj with
    | single hstep => exact hrank k hk _ hstep
    | tail hki hstep ih =>
      have hi := mem_of_reflTransGen hk hki.to_reflTransGen
      exact Nat.lt_trans (hrank _ hi _ hstep) ih
  intro hcircle
  obtain ⟨i, -, hstep⟩ := Relation.TransGen.tail'_iff.mp hcircle
  exact Nat.lt_irrefl _ (hless k hstep.mem hcircle)

end Family

theorem firstRepeated_eq_none {seen names : List String} (hnames : names.Nodup)
    (hseen : ∀ n ∈ names, n ∉ seen) : firstRepeated seen names = none := by
  induction names generalizing seen with
  | nil => rfl
  | cons name rest ih =>
    obtain ⟨hnew, hrest⟩ := List.nodup_cons.mp hnames
    rw [firstRepeated, if_neg (hseen name (by simp))]
    apply ih hrest
    intro n hn
    rw [List.mem_cons, not_or]
    constructor
    · rintro rfl
      exact hnew hn
    · exact hseen n (List.mem_cons_of_mem _ hn)

theorem exists_mergeProperties {own : List Property} (h : (own.map (·.name)).Nodup)
    (name : QualifiedName) (inherited : List Property) :
    ∃ merged, mergeProperties name inherited own = .ok merged := by
  rw [mergeProperties, firstRepeated_eq_none h (by simp)]
  exact ⟨_, rfl⟩

namespace Registry
variable {f : Family} {i j k : Kind} {r s t : Registry} {d e : Descriptor}

/-- The type `d` is what the family says of `k`, and its supertype is what holds the name of the
supertype. -/
structure Holds (r : Registry) (f : Family) (k : Kind) (d : Descriptor) : Prop where
  named : d.qualifiedName = k.qualifiedName
  binding : d.binding = .kind k.typeName
  shape : f.Shape k d.properties (d.supertypes.map (·.qualifiedName))
  linked : ∀ p, d.parent? = some p → r.get? p.qualifiedName = some p

/-- Of each kind of the family, the registry has the type that the family says, or nothing. -/
structure Hosts (r : Registry) (f : Family) : Prop where
  found : ∀ k ∈ f.kinds, r.getKind? k = r.get? k.qualifiedName
  types : ∀ k ∈ f.kinds, ∀ d, r.get? k.qualifiedName = some d → r.Holds f k d
  edges : ∀ k ∈ f.kinds, ∀ p, r.graph.Extends k.qualifiedName p →
    ∃ j, f.Extends k j ∧ j.qualifiedName = p

/-- What registering `k` does to a registry: it binds names that are free, those of `k` and of kinds
above it, and records what the new types extend. -/
structure Fills (f : Family) (k : Kind) (r s : Registry) : Prop where
  kept : ∀ n d, r.get? n = some d → s.get? n = some d
  only : ∀ n, s.get? n = r.get? n ∨
    ∃ i, Relation.ReflTransGen f.Extends k i ∧ i.qualifiedName = n
  edges : ∀ c p, r.graph.Extends c p → s.graph.Extends c p
  recorded : ∀ n d p, s.get? n = some d → d.parent? = some p →
    r.get? n = some d ∨ s.graph.Extends n p.qualifiedName
  taken : ∀ c p, s.graph.Extends c p → r.graph.Extends c p ∨
    ∃ d e, s.get? c = some d ∧ d.parent? = some e ∧ e.qualifiedName = p

/-- The answer `d` to registering `k`, and the registry `s` that is left. -/
structure Serves (f : Family) (k : Kind) (r : Registry) (d : Descriptor) (s : Registry) : Prop where
  hosts : s.Hosts f
  fills : Fills f k r s
  bound : s.get? k.qualifiedName = some d

theorem Holds.mono (h : r.Holds f k d) (hkept : ∀ n d, r.get? n = some d → s.get? n = some d) :
    s.Holds f k d :=
  ⟨h.named, h.binding, h.shape, fun p hp => hkept _ _ (h.linked p hp)⟩

theorem Fills.refl (f : Family) (k : Kind) (r : Registry) : Fills f k r r where
  kept _ _ := id
  only _ := .inl rfl
  edges _ _ := id
  recorded _ _ _ hd _ := .inl hd
  taken _ _ := .inl

theorem hosts_empty (policy : ConflictPolicy) (f : Family) : (empty policy).Hosts f where
  found _ _ := rfl
  types _ _ _ h := by cases h
  edges _ _ _ h := by cases h

/-- Only what the family says is on record about its kinds, so no circle is found. -/
theorem Hosts.wouldCreateCycle_eq_false (hf : f.Orderly) (hr : r.Hosts f) (hk : k ∈ f.kinds)
    (hkj : f.Extends k j) :
    r.graph.wouldCreateCycle k.qualifiedName j.qualifiedName = false := by
  rw [Bool.eq_false_iff]
  intro hcycle
  have hreach := (r.graph.wouldCreateCycle_eq_true_iff _ _).mp hcycle
  have habove : ∀ n, r.graph.Reaches j.qualifiedName n →
      ∃ i, Relation.ReflTransGen f.Extends j i ∧ i.qualifiedName = n := by
    intro n hn
    induction hn with
    | refl => exact ⟨j, .refl, rfl⟩
    | tail _ hstep ih =>
      obtain ⟨i, hi, rfl⟩ := ih
      obtain ⟨i', hi', hname⟩ := hr.edges i (Family.mem_of_reflTransGen hkj.mem hi) _ hstep
      exact ⟨i', hi.tail hi', hname⟩
  obtain ⟨i, hi, hname⟩ := habove _ hreach
  exact hf.name_ne hk hkj hi hname

theorem Hosts.addEdge (hf : f.Orderly) (hr : r.Hosts f) (hk : k ∈ f.kinds)
    (hkj : f.Extends k j) :
    ({ r with graph := r.graph.addEdge k.qualifiedName j.qualifiedName } : Registry).Hosts f where
  found := hr.found
  types i hi d hd := (hr.types i hi d hd).mono fun _ _ => id
  edges i hi p hp := by
    rcases (InheritanceGraph.mem_edges_addEdge r.graph _ _).mp hp with hold | hnew
    · exact hr.edges i hi p hold
    · obtain ⟨hname, rfl⟩ := Prod.mk.inj hnew
      obtain rfl := hf.eq_of_name hi hk hname
      exact ⟨j, hkj, rfl⟩

theorem get?_store_named {n : QualifiedName} (h : d.qualifiedName = n) :
    (r.store d).get? n = some d := by
  rw [get?_store, if_pos h]

section Store
variable (hfree : r.get? k.qualifiedName = none) (hd : r.Holds f k d)
include hfree hd

theorem get?_store_of_holds {n : QualifiedName} (he : r.get? n = some e) :
    (r.store d).get? n = some e := by
  rw [get?_store, if_neg, he]
  rintro rfl
  rw [hd.named, hfree] at he
  cases he

/-- A new type of a kind, once its supertype is there. -/
theorem Hosts.store (hf : f.Orderly) (hr : r.Hosts f) (hk : k ∈ f.kinds) :
    (r.store d).Hosts f where
  found i hi := by
    rw [getKind?, byKind_store, get?_store, hd.binding, hd.named]
    by_cases hik : i = k
    · subst hik
      rw [if_pos rfl, if_pos rfl]
    · rw [if_neg, if_neg]
      · exact hr.found i hi
      · exact fun h => hik (hf.eq_of_name hi hk h.symm)
      · exact fun h => hik (hf.eq_of_typeName hi hk (Binding.kind.inj h).symm)
  types i hi e he := by
    apply Holds.mono _ fun n e => get?_store_of_holds hfree hd
    rw [get?_store] at he
    split at he
    · next hname =>
      obtain rfl := hf.eq_of_name hk hi (hd.named.symm.trans hname)
      obtain rfl := Option.some.inj he
      exact hd
    · exact hr.types i hi e he
  edges i hi p hp := by
    rw [store_eq] at hp
    exact hr.edges i hi p hp

theorem Fills.store (hedge : ∀ p, d.parent? = some p →
    r.graph.Extends k.qualifiedName p.qualifiedName) : Fills f k r (r.store d) where
  kept n e := get?_store_of_holds hfree hd
  only n := by
    rw [get?_store]
    by_cases hn : d.qualifiedName = n
    · exact .inr ⟨k, .refl, hd.named.symm.trans hn⟩
    · exact .inl (if_neg hn)
  edges c p hcp := by
    rw [store_eq]
    exact hcp
  recorded n e p he hp := by
    rw [get?_store] at he
    split at he
    · next hn =>
      obtain rfl := Option.some.inj he
      rw [store_eq, ← hn, hd.named]
      exact .inr (hedge p hp)
    · exact .inl he
  taken c p hcp := by
    rw [store_eq] at hcp
    exact .inl hcp

end Store

/-- The new type of a kind that extends `j`, after `j` is registered. -/
theorem Fills.under {p : Descriptor} (hkj : f.Extends k j)
    (h : Fills f j { r with graph := r.graph.addEdge k.qualifiedName j.qualifiedName } s)
    (hfree : s.get? k.qualifiedName = none) (hd : s.Holds f k d) (hp : d.parent? = some p)
    (hname : p.qualifiedName = j.qualifiedName) : Fills f k r (s.store d) := by
  have hedge : s.graph.Extends k.qualifiedName j.qualifiedName :=
    h.edges _ _ ((InheritanceGraph.mem_edges_addEdge _ _ _).mpr (.inr rfl))
  have hstore : Fills f k s (s.store d) := by
    apply Fills.store hfree hd
    intro q hq
    obtain rfl := Option.some.inj (hp.symm.trans hq)
    rwa [hname]
  refine ⟨fun n e he => hstore.kept n e (h.kept n e he), ?_, ?_, ?_, ?_⟩
  · intro n
    rcases hstore.only n with hn | habove
    · rw [hn]
      exact (h.only n).imp id fun ⟨i, hi, hin⟩ => ⟨i, .head hkj hi, hin⟩
    · exact .inr habove
  · intro c q hcq
    exact hstore.edges c q (h.edges c q ((InheritanceGraph.mem_edges_addEdge _ _ _).mpr (.inl hcq)))
  · intro n e q he hq
    rcases hstore.recorded n e q he hq with he | hrec
    · exact (h.recorded n e q he hq).imp id (hstore.edges n _)
    · exact .inr hrec
  · intro c q hcq
    rcases hstore.taken c q hcq with hcq | hnew
    · rcases h.taken c q hcq with hcq | ⟨e, u, he, hu, hq⟩
      · rcases (InheritanceGraph.mem_edges_addEdge _ _ _).mp hcq with hold | heq
        · exact .inl hold
        · obtain ⟨rfl, rfl⟩ := Prod.mk.inj heq
          refine .inr ⟨d, p, ?_, hp, hname⟩
          exact get?_store_named hd.named
      · exact .inr ⟨e, u, hstore.kept c e he, hu, hq⟩
    · exact .inr hnew

/-- The type that a definition gets. -/
def fresh (r : Registry) (name : QualifiedName) (properties : List Property)
    (parent : Option Descriptor) (binding : Binding) : Descriptor :=
  ⟨⟨r.next, name, properties, binding⟩, (parent.map Descriptor.chain).getD []⟩

theorem defineWith_of_free
    {registerKind : Kind → Registry → Except SchemaError Descriptor × Registry}
    {definition : Definition} {binding : Binding} {properties : List Property}
    (parent : Option Descriptor)
    (hparent : resolveParent registerKind definition.qualifiedName binding definition.parent r =
      (.ok parent, s))
    (hmerge : mergeProperties definition.qualifiedName ((parent.map (·.properties)).getD [])
      definition.properties = .ok properties)
    (hfree : s.get? definition.qualifiedName = none) :
    defineWith registerKind definition binding r =
      (.ok (s.fresh definition.qualifiedName properties parent binding),
        s.store (s.fresh definition.qualifiedName properties parent binding)) := by
  rw [defineWith, hparent]
  dsimp only
  rw [hmerge]
  dsimp only
  rw [Registry.bind, hfree]
  rfl

theorem resolveParent_kind_of_ok
    {registerKind : Kind → Registry → Except SchemaError Descriptor × Registry}
    {name : QualifiedName} {binding : Binding} (hname : j.qualifiedName ≠ name)
    (hcycle : r.graph.wouldCreateCycle name j.qualifiedName = false)
    (hregister : registerKind j { r with graph := r.graph.addEdge name j.qualifiedName } =
      (.ok d, s)) :
    resolveParent registerKind name binding (some (.kind j)) r = (.ok (some d), s) := by
  rw [resolveParent_kind, if_neg hname, if_neg (by simp [hcycle]), hregister]
  rfl

theorem holds_fresh_of_top {properties : List Property} (hk : f.superKind? k = none)
    (hmerge : mergeProperties k.qualifiedName [] k.properties = .ok properties) :
    r.Holds f k (r.fresh k.qualifiedName properties none (.kind k.typeName)) where
  named := rfl
  binding := rfl
  shape := .root hk hmerge
  linked _ hp := by cases hp

theorem holds_fresh_of_extends {p : Descriptor} {properties : List Property} (hkj : f.Extends k j)
    (hp : r.Holds f j p) (hbound : r.get? j.qualifiedName = some p)
    (hmerge : mergeProperties k.qualifiedName p.properties k.properties = .ok properties) :
    r.Holds f k (r.fresh k.qualifiedName properties (some p) (.kind k.typeName)) where
  named := rfl
  binding := rfl
  shape := by
    have hshape := Family.Shape.under hkj hp.shape hmerge
    rw [← hp.named] at hshape
    exact hshape
  linked q hq := by
    obtain rfl := Option.some.inj hq
    rw [← hp.named] at hbound
    exact hbound

/-- Registering a kind succeeds within a bound that the trail leaves. The trail grows by one kind
for each extension that is followed, so it is never longer than the family. -/
theorem registerWithin_serves (hf : f.Orderly) {fuel : Nat} {trail : List Kind}
    (htrail : f.Trail trail k) (hfuel : f.kinds.length < trail.length + fuel) (hk : k ∈ f.kinds)
    (hr : r.Hosts f) : ∃ d s, registerWithin f fuel k r = (.ok d, s) ∧ Serves f k r d s := by
  induction fuel generalizing k r trail with
  | zero =>
    have hlength := htrail.length_lt hf hk
    omega
  | succ fuel ih =>
    rw [registerWithin]
    cases hkind : r.getKind? k with
    | some d => exact ⟨d, r, rfl, hr, .refl f k r, (hr.found k hk).symm.trans hkind⟩
    | none =>
      have hfree : r.get? k.qualifiedName = none := (hr.found k hk).symm.trans hkind
      have hmerge := exists_mergeProperties (hf.properties k hk) k.qualifiedName
      cases hsuper : f.superKind? k with
      | none =>
        obtain ⟨merged, hmerged⟩ := hmerge []
        have hd := holds_fresh_of_top (r := r) hsuper hmerged
        refine ⟨_, _, defineWith_of_free none ?_ hmerged hfree, ?_⟩
        · rw [Kind.definition, hsuper]
          rfl
        · refine ⟨hr.store hfree hd hf hk, .store hfree hd ?_, get?_store_named rfl⟩
          intro p hp
          cases hp
      | some j =>
        have hj : j ∈ f.kinds := Family.Extends.mem hsuper
        have hcycle := hr.wouldCreateCycle_eq_false hf hk hsuper
        obtain ⟨p, s, hregister, hs, hfills, hbound⟩ := ih (htrail.cons hf hk hsuper)
          (by rw [List.length_cons]; omega) hj (hr.addEdge hf hk hsuper)
        -- what has been registered is above `k`, so the name of `k` is still free
        have hstill : s.get? k.qualifiedName = none := by
          rcases hfills.only k.qualifiedName with hsame | ⟨i, hi, hname⟩
          · exact hsame.trans hfree
          · exact absurd hname (hf.name_ne hk hsuper hi)
        obtain ⟨merged, hmerged⟩ := hmerge p.properties
        have hp := hs.types j hj p hbound
        have hd := holds_fresh_of_extends hsuper hp hbound hmerged
        refine ⟨_, _, defineWith_of_free (some p) ?_ hmerged hstill, ?_⟩
        · rw [Kind.definition, hsuper]
          exact resolveParent_kind_of_ok (hf.name_ne hk hsuper .refl) hcycle hregister
        · exact ⟨hs.store hstill hd hf hk, hfills.under hsuper hstill hd rfl hp.named,
            get?_store_named rfl⟩

theorem register_serves (hf : f.Orderly) (hk : k ∈ f.kinds) (hr : r.Hosts f) :
    ∃ d s, r.register f k = (.ok d, s) ∧ Serves f k r d s :=
  registerWithin_serves hf ⟨List.nodup_nil, nofun, nofun⟩ (by simp) hk hr

theorem Holds.exists_parent (h : r.Holds f k d) (hkj : f.Extends k j) :
    ∃ p, d.parent? = some p ∧ p.qualifiedName = j.qualifiedName := by
  have hshape := h.shape
  cases hsupers : d.supertypes with
  | nil =>
    rw [hsupers] at hshape
    cases hshape with
    | root top merged => cases top.symm.trans hkj
  | cons entry rest =>
    rw [hsupers] at hshape
    refine ⟨⟨entry, rest⟩, by rw [Descriptor.parent?, hsupers], ?_⟩
    generalize hnames : (entry :: rest).map (·.qualifiedName) = names at hshape
    cases hshape with
    | root top merged => cases top.symm.trans hkj
    | under step super merged =>
      obtain rfl := Option.some.inj (step.symm.trans hkj)
      exact (List.cons.inj hnames).1

/-- With a kind, everything above it is there. -/
theorem Hosts.exists_above (hr : r.Hosts f) (hk : k ∈ f.kinds)
    (hd : r.get? k.qualifiedName = some d) (hkj : Relation.ReflTransGen f.Extends k j) :
    ∃ e, r.get? j.qualifiedName = some e := by
  induction hkj with
  | refl => exact ⟨d, hd⟩
  | tail hki hstep ih =>
    obtain ⟨e, he⟩ := ih
    have hholds := hr.types _ (Family.mem_of_reflTransGen hk hki) e he
    obtain ⟨p, hp, hname⟩ := hholds.exists_parent hstep
    exact ⟨p, hname ▸ hholds.linked p hp⟩

end Registry

end Arbor
