import Arbor.Proofs.Schema.Families
import Arbor.Script.Kinds

/-!
The order of registrations. Two sequences of requests that cover a family of kinds go through quite
different registries: a request may find every supertype at hand or have to register them all. In
the end both have, for every kind, the type that the family says, so the order decides about serial
numbers only.
-/
namespace Arbor

namespace Registry
variable {f : Family} {k : Kind} {r : Registry}

/-- What requests for kinds of a family make of a registry: each answer is the type that has the
name in the end, and other names are left alone. -/
structure Stocks (f : Family) (ks : List Kind) (r : Registry)
    (answers : List (Except SchemaError Descriptor)) (s : Registry) : Prop where
  hosts : s.Hosts f
  given : answers = ks.map (s.lookup ·.qualifiedName)
  bound : ∀ k ∈ ks, ∃ d, s.get? k.qualifiedName = some d
  kept : ∀ n d, r.get? n = some d → s.get? n = some d
  only : ∀ n, s.get? n = r.get? n ∨ ∃ k ∈ f.kinds, k.qualifiedName = n

theorem stocks_after (hf : f.Orderly) (hr : r.Hosts f) {ks : List Kind}
    (hks : ∀ k ∈ ks, k ∈ f.kinds) :
    Stocks f ks r (r.answers (ks.map (.register f))) (r.after (ks.map (.register f))) := by
  induction ks generalizing r with
  | nil => exact ⟨hr, rfl, nofun, fun _ _ => id, fun _ => .inl rfl⟩
  | cons k ks ih =>
    obtain ⟨hk, hrest⟩ := List.forall_mem_cons.mp hks
    obtain ⟨d, s, hregister, hs, hfills, hbound⟩ := register_serves hf hk hr
    have htail := ih hs hrest
    have hd := htail.kept _ _ hbound
    rw [List.map_cons, after_cons, answers, handle, hregister]
    refine ⟨htail.hosts, ?_, ?_, ?_, ?_⟩
    · dsimp only at hd ⊢
      rw [List.map_cons, htail.given, lookup, hd]
    · exact List.forall_mem_cons.mpr ⟨⟨d, hd⟩, htail.bound⟩
    · intro n e he
      exact htail.kept n e (hfills.kept n e he)
    · intro n
      rcases htail.only n with hn | hother
      · rw [hn]
        exact (hfills.only n).imp id fun ⟨i, hi, hin⟩ => ⟨i, Family.mem_of_reflTransGen hk hi, hin⟩
      · exact .inr hother

end Registry

/-- Kinds of the family such that each kind of it is among them or extended by one of them, at
once or through others. -/
structure Family.Covered (f : Family) (ks : List Kind) : Prop where
  mem : ∀ k ∈ ks, k ∈ f.kinds
  all : ∀ k ∈ f.kinds, ∃ j ∈ ks, Relation.ReflTransGen f.Extends j k

/-- The same type in two registries, which number their types differently. -/
structure Descriptor.Alike (d e : Descriptor) : Prop where
  qualifiedName : e.qualifiedName = d.qualifiedName
  binding : e.binding = d.binding
  properties : e.properties = d.properties
  supertypes : e.supertypes.map (·.qualifiedName) = d.supertypes.map (·.qualifiedName)

namespace Registry
variable {f : Family} {k : Kind} {r s : Registry} {d e : Descriptor} {ks ls : List Kind}

/-- The supertype of a type is what has the name of the supertype. -/
def Linked (r : Registry) : Prop :=
  ∀ ⦃n d p⦄, r.get? n = some d → d.parent? = some p → r.get? p.qualifiedName = some p

/-- The registry that requests for kinds of a family leave of an empty one. -/
def registering (policy : ConflictPolicy) (f : Family) (ks : List Kind) : Registry :=
  (empty policy).after (ks.map (.register f))

theorem Holds.alike (hd : r.Holds f k d) (he : s.Holds f k e) : d.Alike e where
  qualifiedName := he.named.trans hd.named.symm
  binding := he.binding.trans hd.binding.symm
  properties := (he.shape.unique hd.shape).1
  supertypes := (he.shape.unique hd.shape).2

section Order
variable (hf : f.Orderly) (hks : f.Covered ks) (policy : ConflictPolicy)
include hf hks

theorem stocks_registering : Stocks f ks (empty policy)
    ((empty policy).answers (ks.map (.register f))) (registering policy f ks) :=
  stocks_after hf (hosts_empty policy f) hks.mem

/-- Every kind of the family has its name, and no other name is bound. -/
theorem exists_holds_or_unbound (n : QualifiedName) :
    (∃ k ∈ f.kinds, k.qualifiedName = n ∧ ∃ d, (registering policy f ks).get? n = some d ∧
        (registering policy f ks).Holds f k d) ∨
      (∀ k ∈ f.kinds, k.qualifiedName ≠ n) ∧ (registering policy f ks).get? n = none := by
  have hstocks := stocks_registering hf hks policy
  by_cases hn : ∃ k ∈ f.kinds, k.qualifiedName = n
  · obtain ⟨k, hk, rfl⟩ := hn
    obtain ⟨j, hj, hjk⟩ := hks.all k hk
    obtain ⟨d, hd⟩ := hstocks.bound j hj
    obtain ⟨e, he⟩ := hstocks.hosts.exists_above (hks.mem j hj) hd hjk
    exact .inl ⟨k, hk, rfl, e, he, hstocks.hosts.types k hk e he⟩
  · right
    constructor
    · intro k hk hkn
      exact hn ⟨k, hk, hkn⟩
    · rcases hstocks.only n with hsame | hkind
      · exact hsame
      · exact absurd hkind hn

theorem linked_registering : (registering policy f ks).Linked := by
  intro n d p hd hp
  rcases exists_holds_or_unbound hf hks policy n with ⟨k, -, -, e, he, hholds⟩ | ⟨-, hnone⟩
  · obtain rfl := Option.some.inj (hd.symm.trans he)
    exact hholds.linked p hp
  · cases hnone.symm.trans hd

theorem ok_of_mem_answers : ∀ answer ∈ (empty policy).answers (ks.map (.register f)),
    ∃ d, answer = .ok d := by
  have hstocks := stocks_registering hf hks policy
  intro answer hanswer
  rw [hstocks.given] at hanswer
  obtain ⟨k, hk, rfl⟩ := List.mem_map.mp hanswer
  obtain ⟨d, hd⟩ := hstocks.bound k hk
  exact ⟨d, by rw [lookup, hd]⟩

end Order

/-- In whatever order the kinds of a family are registered, and whatever the policy, each of them is
registered, and the registries have the same types under the same names. Their supertypes are the
types that have the names of the supertypes. -/
theorem registering_alike (hf : f.Orderly) (hks : f.Covered ks) (hls : f.Covered ls)
    (policy policy' : ConflictPolicy) :
    (∀ answer ∈ (empty policy).answers (ks.map (.register f)), ∃ d, answer = .ok d) ∧
      (∀ answer ∈ (empty policy').answers (ls.map (.register f)), ∃ d, answer = .ok d) ∧
      (∀ n, Option.Rel Descriptor.Alike ((registering policy f ks).get? n)
        ((registering policy' f ls).get? n)) ∧
      (registering policy f ks).Linked ∧ (registering policy' f ls).Linked := by
  refine ⟨ok_of_mem_answers hf hks policy, ok_of_mem_answers hf hls policy', ?_,
    linked_registering hf hks policy, linked_registering hf hls policy'⟩
  intro n
  rcases exists_holds_or_unbound hf hks policy n with ⟨k, hk, rfl, d, hd, hd'⟩ | ⟨hfree, hnone⟩
  · rcases exists_holds_or_unbound hf hls policy' k.qualifiedName with
      ⟨j, hj, hname, e, he, he'⟩ | ⟨hfree, -⟩
    · obtain rfl := hf.eq_of_name hj hk hname
      rw [hd, he]
      exact .some (hd'.alike he')
    · exact absurd rfl (hfree k hk)
  · rcases exists_holds_or_unbound hf hls policy' n with ⟨j, hj, hname, -⟩ | ⟨-, hnone'⟩
    · exact absurd hname (hfree j hj)
    · rw [hnone, hnone']
      exact .none

end Registry

section Language

theorem Script.Kinds.orderly_family : Script.Kinds.family.Orderly where
  typeNames := by decide
  names := by decide
  closed := by decide
  acyclic := by
    apply Family.acyclic_of_rank fun k => if k.extends?.isSome then 1 else 0
    have hrank : ∀ k ∈ family.kinds, ∀ j ∈ family.superKind? k,
        (if j.extends?.isSome then 1 else 0) < if k.extends?.isSome then 1 else 0 := by decide
    exact hrank
  properties := by decide

theorem Family.covered_of_subset {f : Family} {ks : List Kind} (hmem : ∀ k ∈ ks, k ∈ f.kinds)
    (hall : ∀ k ∈ f.kinds, k ∈ ks) : f.Covered ks :=
  ⟨hmem, fun k hk => ⟨k, hall k hk, .refl⟩⟩

namespace Registry
open Script.Kinds

/-- The kinds of the language in their own order and the other way round, twice. -/
theorem registering_alike_language :
    family.Orderly ∧ family.Covered family.kinds ∧
      family.Covered (family.kinds.reverse ++ family.kinds.reverse) ∧
      (∀ answer ∈ (empty .fail).answers (family.kinds.map (.register family)),
        ∃ d, answer = .ok d) ∧
      (∀ answer ∈ (empty .overwrite).answers
        ((family.kinds.reverse ++ family.kinds.reverse).map (.register family)),
          ∃ d, answer = .ok d) ∧
      (∀ n, Option.Rel Descriptor.Alike ((registering .fail family family.kinds).get? n)
        ((registering .overwrite family (family.kinds.reverse ++ family.kinds.reverse)).get? n)) ∧
      (registering .fail family family.kinds).Linked ∧
      (registering .overwrite family (family.kinds.reverse ++ family.kinds.reverse)).Linked := by
  have hks : family.Covered family.kinds := Family.covered_of_subset (fun _ => id) (fun _ => id)
  have hls : family.Covered (family.kinds.reverse ++ family.kinds.reverse) :=
    Family.covered_of_subset (by simp) (by simp)
  exact ⟨orderly_family, hks, hls, registering_alike orderly_family hks hls .fail .overwrite⟩

end Registry
end Language
end Arbor
