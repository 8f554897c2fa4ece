import Arbor.Proofs.Schema.Builtin
import Arbor.Proofs.Schema.Places

/-!
Types with plain property names. No two properties of such a type have one name, and no name has
the mark that joins the name of a type to that of a property. The built-in types are of this sort,
and so is a placeholder if the type that it extends is; so registering them leaves a registry of such
types as it was.
-/
namespace Arbor

/-- No property name comes twice, and none has the mark. -/
structure Descriptor.PlainNamed (d : Descriptor) : Prop where
  names : (d.properties.map (·.name)).Nodup
  plain : ∀ p ∈ d.properties, '#' ∉ p.name.toList

namespace Registry
variable {r : Registry} {k : Kind}

theorem plain_builtin : ∀ k ∈ Family.builtin.kinds, ∀ p ∈ k.properties, '#' ∉ p.name.toList := by
  decide

theorem All.register_builtin (h : r.All Descriptor.PlainNamed) (hk : k ∈ Family.builtin.kinds) :
    Leaves (All Descriptor.PlainNamed) Descriptor.PlainNamed (r.register .builtin k) := by
  obtain ⟨htop, -, hnames, -⟩ := builtin_cases k hk
  rw [register, registerWithin]
  split
  · next d hd => exact leaves_ok h (h.2 _ (Table.mem_values_of_get? hd))
  · simp only [defineWith, Kind.definition, htop, Option.map_none, resolveParent, Option.getD_none,
      mergeProperties_builtin hk]
    exact h.bind ⟨hnames, plain_builtin k hk⟩

theorem All.registerPlaceholder {base : Descriptor} (h : r.All Descriptor.PlainNamed)
    (hbase : base.PlainNamed) (name : QualifiedName) (sourceType : String) :
    (r.registerPlaceholder name sourceType (some base)).2.All Descriptor.PlainNamed := by
  rw [Registry.registerPlaceholder]
  split
  · exact h
  · refine h.store ⟨?_, ?_⟩
    · show ((base.properties.map Property.asInherited).map (·.name)).Nodup
      rw [List.map_map]
      exact hbase.names
    · show ∀ p ∈ base.properties.map Property.asInherited, _
      exact List.forall_mem_map.mpr hbase.plain

end Registry

end Arbor
