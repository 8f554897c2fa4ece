import Arbor.Proofs.Schema.Builtin
import Arbor.Proofs.Schema.Requests

/-!
Names under the policy that refuses conflicts. A name that is bound stays bound. While a
placeholder holds it, any other type may take it, but from then on the type keeps its binding and
its supertypes, and its properties stay where they are, with new ones after them.
-/
namespace Arbor

/-- The type `e` is the type `d`, with further properties perhaps. -/
structure Descriptor.Grows (d e : Descriptor) : Prop where
  binding : e.binding = d.binding
  supertypes : e.supertypes = d.supertypes
  properties : d.properties <+: e.properties

namespace Descriptor.Grows
variable {d e f : Descriptor}

theorem refl (d : Descriptor) : d.Grows d := ⟨rfl, rfl, List.prefix_rfl⟩

theorem trans (hde : d.Grows e) (hef : e.Grows f) : d.Grows f where
  binding := hef.binding.trans hde.binding
  supertypes := hef.supertypes.trans hde.supertypes
  properties := hde.properties.trans hef.properties

theorem isPlaceholder (h : d.Grows e) : e.isPlaceholder = d.isPlaceholder := by
  rw [Descriptor.isPlaceholder, h.binding, Descriptor.isPlaceholder]

end Descriptor.Grows

namespace Registry
variable {r s t : Registry}

/-- Every name bound in `r` is bound in `s`, and to the same type unless a placeholder had it. -/
def KeptBy (r s : Registry) : Prop :=
  ∀ ⦃n d⦄, r.get? n = some d → ∃ e, s.get? n = some e ∧ (d.isPlaceholder = false → d.Grows e)

theorem KeptBy.of_get?_eq (h : ∀ n, s.get? n = r.get? n) : r.KeptBy s := by
  intro n d hd
  exact ⟨d, (h n).trans hd, fun _ => .refl d⟩

theorem KeptBy.trans (hrs : r.KeptBy s) (hst : s.KeptBy t) : r.KeptBy t := by
  intro n d hd
  obtain ⟨e, he, hde⟩ := hrs hd
  obtain ⟨f, hf, hef⟩ := hst he
  refine ⟨f, hf, fun hfinal => ?_⟩
  have hgrows := hde hfinal
  exact hgrows.trans (hef (hgrows.isPlaceholder.trans hfinal))

theorem keptBy_store {d : Descriptor}
    (h : ∀ e, r.get? d.qualifiedName = some e → e.isPlaceholder = false → e.Grows d) :
    r.KeptBy (r.store d) := by
  intro n e he
  by_cases hn : d.qualifiedName = n
  · subst hn
    exact ⟨d, by rw [get?_store, if_pos rfl], h e he⟩
  · exact ⟨e, by rw [get?_store, if_neg hn, he], fun _ => .refl e⟩

/-- The policy that refuses conflicts lets only placeholders go. -/
theorem keptBy_of_binds (hpolicy : r.policy = .fail) {name : QualifiedName} {binding : Binding}
    (h : r.Binds name binding s) : r.KeptBy s := by
  cases h with
  | known d held same => exact .of_get?_eq fun _ => rfl
  | fresh d yields named bound =>
    apply keptBy_store
    intro e he hfinal
    rw [named] at he
    rw [yields e he] at hfinal
    cases hfinal
  | refused d held other final answer => exact .of_get?_eq fun _ => rfl
  | kept d held other final answer => exact .of_get?_eq fun _ => rfl
  | replaced d e held other final answer named bound =>
    rw [hpolicy, ConflictPolicy.resolve] at answer
    cases answer

/-- What every small step of a registry that refuses conflicts keeps. -/
def Advances (r s : Registry) : Prop :=
  r.policy = .fail → r.Named → s.policy = .fail ∧ s.Named ∧ r.KeptBy s

theorem advances_of_keptBy (hpolicy : s.policy = r.policy) (hnamed : r.Named → s.Named)
    (h : r.policy = .fail → r.Named → r.KeptBy s) : r.Advances s :=
  fun hr hn => ⟨hpolicy.trans hr, hnamed hn, h hr hn⟩

theorem onward_advances : Onward Advances where
  refl r := advances_of_keptBy rfl id fun _ _ => .of_get?_eq fun _ => rfl
  trans {r s t} hrs hst hr hn := by
    obtain ⟨hs, hsn, hkept⟩ := hrs hr hn
    obtain ⟨ht, htn, hkept'⟩ := hst hs hsn
    exact ⟨ht, htn, hkept.trans hkept'⟩
  addEdge r _ _ := advances_of_keptBy rfl id fun _ _ => .of_get?_eq fun _ => rfl
  bind r name properties parent binding := by
    apply advances_of_keptBy
    · exact onward_policy.bind r name properties parent binding
    · exact onward_named.bind r name properties parent binding
    · intro hr _
      exact keptBy_of_binds hr (r.binds_bind name properties parent binding)
  placeholder r name sourceType parent := by
    apply advances_of_keptBy
    · exact onward_policy.placeholder r name sourceType parent
    · exact onward_named.placeholder r name sourceType parent
    · intro _ _
      rcases r.registerPlaceholder_cases name sourceType parent with hs | ⟨d, hfree, rfl, -, hs⟩
      · rw [hs]
        exact .of_get?_eq fun _ => rfl
      · rw [hs]
        apply keptBy_store
        intro e he
        rw [hfree] at he
        cases he
  property r name property := by
    apply advances_of_keptBy
    · exact onward_policy.property r name property
    · exact onward_named.property r name property
    · intro _ hn
      rcases r.registerProperty_cases name property with hs | ⟨d, hd, hs⟩
      · rw [hs]
        exact .of_get?_eq fun _ => rfl
      · rw [hs]
        apply keptBy_store
        intro e he _
        have hname : d.qualifiedName = name := hn hd
        obtain rfl := Option.some.inj (hd.symm.trans (hname ▸ he))
        exact ⟨rfl, rfl, List.prefix_append _ _⟩

/-- Under the policy that refuses conflicts, a bound name has a type of this name and is never free
again. Once it is no placeholder, the type keeps binding and supertypes, and its properties only
grow at the end. -/
theorem get?_final {requests : List Request} {name : QualifiedName} {d : Descriptor}
    (h : ((empty .fail).after requests).get? name = some d) (more : List Request) :
    d.qualifiedName = name ∧
      ∃ e, ((empty .fail).after (requests ++ more)).get? name = some e ∧
        (d.isPlaceholder = false →
          e.binding = d.binding ∧ e.supertypes = d.supertypes ∧ d.properties <+: e.properties) := by
  have hnamed := named_after .fail requests
  obtain ⟨-, -, hkept⟩ := onward_advances.after _ more (policy_after _ requests) hnamed
  obtain ⟨e, he, hgrows⟩ := hkept h
  refine ⟨hnamed h, e, ?_, ?_⟩
  · rw [after_append]
    exact he
  · intro hfinal
    obtain ⟨hbinding, hsupertypes, hproperties⟩ := hgrows hfinal
    exact ⟨hbinding, hsupertypes, hproperties⟩

/-- A placeholder has the name before the first kind takes it. -/
def promotion : List Request :=
  [.placeholder firstRival.qualifiedName "SetStatementContext" none,
    .register ⟨[firstRival, secondRival]⟩ firstRival]

/-- The second kind is refused the name, and a property comes to the type that has it. -/
def promotionSequel : List Request :=
  [.register ⟨[firstRival, secondRival]⟩ secondRival,
    .property firstRival.qualifiedName (.attr "note" "string")]

theorem get?_final_firstRival :
    ((empty .fail).after promotion).get? firstRival.qualifiedName =
        some (firstRival.descriptor 1) ∧
      (firstRival.descriptor 1).isPlaceholder = false ∧
      (firstRival.descriptor 1).qualifiedName = firstRival.qualifiedName ∧
      ∃ e, ((empty .fail).after (promotion ++ promotionSequel)).get? firstRival.qualifiedName =
          some e ∧ ((firstRival.descriptor 1).isPlaceholder = false →
            e.binding = (firstRival.descriptor 1).binding ∧
            e.supertypes = (firstRival.descriptor 1).supertypes ∧
            (firstRival.descriptor 1).properties <+: e.properties) :=
  ⟨by decide, rfl, get?_final (by decide) promotionSequel⟩

end Registry

end Arbor
