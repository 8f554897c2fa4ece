import Arbor.Forest.World
import Mathlib.Data.List.Basic

/-!
Registries in which the built-in types can be had. The name of such a type is free, or a type of the
kind has it, with further properties at most. Registering the kind then gives the holder of the name
or makes one, and neither this nor a new placeholder takes a built-in type away.
-/
namespace Arbor

/-- A type of a kind: what the kind declares comes first, and no property name comes twice. -/
structure Descriptor.Answers (d : Descriptor) (k : Kind) : Prop where
  binding : d.binding = .kind k.typeName
  declared : k.properties <+: d.properties
  names : (d.properties.map (·.name)).Nodup

/-- The type that a kind declares, if it extends nothing. -/
def Kind.descriptor (k : Kind) (serial : Nat) : Descriptor :=
  ⟨⟨serial, k.qualifiedName, k.properties, .kind k.typeName⟩, []⟩

namespace Registry
variable {r : Registry} {k j : Kind}

/-- The type that holds the name of a kind, or else a new one as the kind declares it. -/
def builtin (r : Registry) (k : Kind) : Descriptor × Registry :=
  match r.get? k.qualifiedName with
  | some d => (d, r)
  | none => (k.descriptor r.next, r.store (k.descriptor r.next))

theorem builtin_of_free (h : r.get? k.qualifiedName = none) :
    r.builtin k = (k.descriptor r.next, r.store (k.descriptor r.next)) := by
  rw [builtin, h]

theorem builtin_of_held {d : Descriptor} (h : r.get? k.qualifiedName = some d) :
    r.builtin k = (d, r) := by
  rw [builtin, h]

theorem get?_store_descriptor (r : Registry) (k : Kind) (serial : Nat) (name : QualifiedName) :
    (r.store (k.descriptor serial)).get? name =
      if k.qualifiedName = name then some (k.descriptor serial) else r.get? name := by
  simp [store, indexByKind, get?, Kind.descriptor]

theorem getKind?_store_descriptor (r : Registry) (k j : Kind) (serial : Nat) :
    (r.store (k.descriptor serial)).getKind? j =
      if k.typeName = j.typeName then some (k.descriptor serial) else r.getKind? j := by
  simp [store, indexByKind, getKind?, Kind.descriptor]

/-- The name of a kind is free, or a type of this kind has it. -/
def OpenTo (r : Registry) (k : Kind) : Prop :=
  (r.get? k.qualifiedName = none ∧ r.getKind? k = none) ∨
    ∃ d, r.get? k.qualifiedName = some d ∧ r.getKind? k = some d ∧ d.Answers k

/-- All built-in types can be had. -/
def Open (r : Registry) : Prop := ∀ k ∈ Family.builtin.kinds, r.OpenTo k

theorem open_empty (policy : ConflictPolicy) : (empty policy).Open := fun _ _ => .inl ⟨rfl, rfl⟩

theorem builtin_cases : ∀ k ∈ Family.builtin.kinds, Family.builtin.superKind? k = none ∧
    (mergeProperties k.qualifiedName [] k.properties).toOption = some k.properties ∧
    (k.properties.map (·.name)).Nodup ∧ k.qualifiedName.package ≠ World.placeholderPackage := by
  decide

theorem builtin_distinct : ∀ j ∈ Family.builtin.kinds, ∀ k ∈ Family.builtin.kinds, j ≠ k →
    k.qualifiedName ≠ j.qualifiedName ∧ k.typeName ≠ j.typeName := by decide

theorem mergeProperties_builtin (hk : k ∈ Family.builtin.kinds) :
    mergeProperties k.qualifiedName [] k.properties = .ok k.properties := by
  have hmerge := (builtin_cases k hk).2.1
  cases h : mergeProperties k.qualifiedName [] k.properties with
  | error e => simp [h, Except.toOption] at hmerge
  | ok ps => simpa [h, Except.toOption] using hmerge

/-- Registering a built-in kind gives what holds its name, or a new type. -/
theorem register_builtin (hk : k ∈ Family.builtin.kinds) (h : r.OpenTo k) :
    r.register .builtin k = (.ok (r.builtin k).1, (r.builtin k).2) := by
  unfold register registerWithin
  rcases h with ⟨hname, hkind⟩ | ⟨d, hname, hkind, -⟩
  · simp only [builtin_of_free hname, hkind, defineWith, Kind.definition, (builtin_cases k hk).1,
      Option.map_none, resolveParent, Option.getD_none, mergeProperties_builtin hk, Registry.bind,
      hname]
    rfl
  · simp only [builtin_of_held hname, hkind]

theorem answers_builtin (hk : k ∈ Family.builtin.kinds) (h : r.OpenTo k) :
    (r.builtin k).1.Answers k := by
  rcases h with ⟨hname, -⟩ | ⟨d, hname, -, hd⟩
  · rw [builtin_of_free hname]
    exact ⟨rfl, List.prefix_rfl, (builtin_cases k hk).2.2.1⟩
  · rw [builtin_of_held hname]
    exact hd

theorem Open.builtin (h : r.Open) (hk : k ∈ Family.builtin.kinds) : (r.builtin k).2.Open := by
  intro j hj
  rcases h k hk with ⟨hname, hkind⟩ | ⟨d, hname, -, -⟩
  · have hnew := answers_builtin hk (h k hk)
    rw [builtin_of_free hname] at hnew ⊢
    unfold OpenTo
    rw [get?_store_descriptor, getKind?_store_descriptor]
    by_cases hjk : j = k
    · subst hjk
      exact .inr ⟨_, if_pos rfl, if_pos rfl, hnew⟩
    · obtain ⟨hq, ht⟩ := builtin_distinct j hj k hk hjk
      rw [if_neg hq, if_neg ht]
      exact h j hj
  · rw [builtin_of_held hname]
    exact h j hj

/-- Placeholders have a package of their own. -/
theorem Open.registerPlaceholder (h : r.Open) (name sourceType : String)
    (parent : Option Descriptor) :
    (r.registerPlaceholder ⟨World.placeholderPackage, name⟩ sourceType parent).2.Open := by
  unfold Registry.registerPlaceholder
  split
  · exact h
  · intro j hj
    have hq : (⟨World.placeholderPackage, name⟩ : QualifiedName) ≠ j.qualifiedName := by
      intro heq
      exact (builtin_cases j hj).2.2.2 (congrArg QualifiedName.package heq.symm)
    have hold := h j hj
    simpa [OpenTo, store, indexByKind, get?, getKind?, hq] using hold

end Registry

end Arbor
