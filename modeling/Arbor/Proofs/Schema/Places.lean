import Arbor.Proofs.Schema.Cycles
import Arbor.Proofs.Schema.Upkeep

/-!
The places of inherited properties. A type gets its properties in one of three ways: from a
definition, which may override what its supertype has, as a placeholder, or by one more property
that is added to it later. Each way leaves the names of the supertype in front and in their order,
so a property has the same place in all types below the one that declares it, and stays there when
one of them is replaced or promoted.
-/
namespace Arbor

namespace Property
variable {above below qs : List Property} {p q : Property} {i : Nat}

/-- How the properties of a type go with those of its supertype: the names of the supertype come
first, and what is marked as inherited is what the supertype has in that place. -/
structure Continue (above below : List Property) : Prop where
  names : above.map (·.name) <+: below.map (·.name)
  inherited : ∀ ⦃i : Nat⦄ ⦃p q : Property⦄, above[i]? = some p → below[i]? = some q →
    q.inherited → q = p.asInherited

theorem names_put (p : Property) (qs : List Property) :
    (put p qs).map (·.name) =
      if p.name ∈ qs.map (·.name) then qs.map (·.name) else qs.map (·.name) ++ [p.name] := by
  induction qs with
  | nil => rfl
  | cons q rest ih =>
    rw [put]
    split
    · next hq => simp [hq]
    · next hq =>
      rw [List.map_cons, ih, List.map_cons]
      simp only [List.mem_cons, Ne.symm hq, false_or]
      split <;> rfl

/-- What is written comes to one place, and the others keep what they have. -/
theorem getElem?_put (h : (put p qs)[i]? = some q) : q = p ∨ qs[i]? = some q := by
  induction qs generalizing i with
  | nil =>
    cases i with
    | zero => exact .inl (Option.some.inj h).symm
    | succ i => cases h
  | cons q' rest ih =>
    rw [put] at h
    split at h
    · cases i with
      | zero => exact .inl (Option.some.inj h).symm
      | succ i => exact .inr h
    · cases i with
      | zero => exact .inr h
      | succ i => exact ih h

theorem nodup_put (h : (qs.map (·.name)).Nodup) (p : Property) :
    ((put p qs).map (·.name)).Nodup := by
  rw [names_put]
  split
  · exact h
  · next hnew =>
    apply h.append (List.nodup_singleton p.name)
    rwa [List.disjoint_singleton]

theorem continue_asInherited (above : List Property) :
    Continue above (above.map asInherited) where
  names := by
    rw [List.map_map]
    exact List.prefix_rfl
  inherited i p q hp hq _ := by
    rw [List.getElem?_map, hp] at hq
    exact (Option.some.inj hq).symm

theorem Continue.put (h : Continue above below) (hp : p.inherited = false) :
    Continue above (put p below) where
  names := by
    rw [names_put]
    split
    · exact h.names
    · exact h.names.trans (List.prefix_append _ _)
  inherited i p' q hp' hq hmarked := by
    rcases getElem?_put hq with rfl | hq
    · rw [hp] at hmarked
      cases hmarked
    · exact h.inherited hp' hq hmarked

theorem Continue.append (h : Continue above below) (p : Property) :
    Continue above (below ++ [p]) where
  names := by
    rw [List.map_append]
    exact h.names.trans (List.prefix_append _ _)
  inherited i p' q hp' hq hmarked := by
    have hlength := h.names.length_le
    rw [List.length_map, List.length_map] at hlength
    have hi := (List.getElem?_eq_some_iff.mp hp').1
    rw [List.getElem?_append_left (by omega)] at hq
    exact h.inherited hp' hq hmarked

theorem continue_of_mergeProperties {name : QualifiedName} {own merged : List Property}
    (habove : (above.map (·.name)).Nodup) (h : mergeProperties name above own = .ok merged) :
    Continue above merged ∧ (merged.map (·.name)).Nodup := by
  have hwrite : ∀ qs, Continue above qs → (qs.map (·.name)).Nodup →
      Continue above (own.foldl (fun qs p => Property.put { p with inherited := false } qs) qs) ∧
        ((own.foldl (fun qs p => Property.put { p with inherited := false } qs) qs).map
          (·.name)).Nodup := by
    clear h
    induction own with
    | nil => exact fun qs hqs hnodup => ⟨hqs, hnodup⟩
    | cons p own ih => exact fun qs hqs hnodup => ih _ (hqs.put rfl) (nodup_put hnodup _)
  rw [mergeProperties] at h
  split at h
  · cases h
  · obtain rfl := Except.ok.inj h
    apply hwrite _ (continue_asInherited above)
    rwa [List.map_map]

end Property

namespace Descriptor
variable {d p : Descriptor} {s : TypeEntry}

/-- A type, and each type that it extends, at once or through others, continues the properties of
the next and has no two properties of one name. -/
inductive Layered : Descriptor → Prop
  | top (entry : TypeEntry) (names : (entry.properties.map (·.name)).Nodup) : Layered ⟨entry, []⟩
  | under (entry : TypeEntry) {p : Descriptor} (super : Layered p)
      (names : (entry.properties.map (·.name)).Nodup)
      (continued : Property.Continue p.properties entry.properties) : Layered ⟨entry, p.chain⟩

theorem Layered.nodup (h : d.Layered) : (d.properties.map (·.name)).Nodup := by
  cases h with
  | top entry names => exact names
  | under entry super names continued => exact names

theorem Layered.parent (h : d.Layered) (hp : d.parent? = some p) :
    p.Layered ∧ Property.Continue p.properties d.properties := by
  cases h with
  | top entry names => cases hp
  | under entry super names continued =>
    obtain rfl := Option.some.inj hp
    exact ⟨super, continued⟩

/-- The names of every supertype come first, since those of the nearest one do. -/
theorem Layered.names_prefix (h : d.Layered) (hs : s ∈ d.supertypes) :
    s.properties.map (·.name) <+: d.properties.map (·.name) := by
  induction h with
  | top entry names => cases hs
  | under entry super names continued ih =>
    rcases List.mem_cons.mp hs with rfl | hs
    · exact continued.names
    · exact (ih hs).trans continued.names

theorem findIdx?_of_prefix {above below : List Property} {name : String}
    (h : above.map (·.name) <+: below.map (·.name)) (hname : name ∈ above.map (·.name)) :
    below.findIdx? (·.name = name) = above.findIdx? (·.name = name) := by
  have hmap : ∀ ps : List Property, ps.findIdx? (·.name = name) =
      (ps.map (·.name)).findIdx? (· = name) := fun ps => by rw [List.findIdx?_map]; rfl
  obtain ⟨rest, hrest⟩ := h
  rw [hmap, hmap, ← hrest, List.findIdx?_append]
  obtain ⟨i, hi⟩ : ∃ i, (above.map (·.name)).findIdx? (· = name) = some i := by
    rw [← Option.isSome_iff_exists, List.findIdx?_isSome]
    exact List.any_eq_true.mpr ⟨name, hname, by simp⟩
  rw [hi, Option.some_or]

/-- A type over its supertype, if it has one. -/
theorem layered_of (entry : TypeEntry) {parent : Option Descriptor}
    (hparent : ∀ p ∈ parent, p.Layered) (hnames : (entry.properties.map (·.name)).Nodup)
    (hover : ∀ p ∈ parent, Property.Continue p.properties entry.properties) :
    Layered ⟨entry, (parent.map Descriptor.chain).getD []⟩ := by
  cases parent with
  | none => exact .top entry hnames
  | some p => exact .under entry (hparent p rfl) hnames (hover p rfl)

/-- One more property comes behind the others. -/
theorem Layered.append (h : d.Layered) (serial : Nat) {property : Property}
    (hnew : property.name ∉ d.properties.map (·.name)) :
    Layered { d with serial, properties := d.properties ++ [property] } := by
  have hnames : ((d.properties ++ [property]).map (·.name)).Nodup := by
    rw [List.map_append]
    apply h.nodup.append (List.nodup_singleton property.name)
    rwa [List.disjoint_singleton]
  cases h with
  | top entry names => exact .top _ hnames
  | under entry super names continued => exact .under _ super hnames (continued.append property)

end Descriptor

namespace Registry
variable {r : Registry} {d e : Descriptor} {Q : Descriptor → Prop}

/-- All types that are found by a name or by a kind. -/
def All (Q : Descriptor → Prop) (r : Registry) : Prop :=
  (∀ d ∈ r.byName.values, Q d) ∧ ∀ d ∈ r.byKind.values, Q d

theorem all_empty (Q : Descriptor → Prop) (policy : ConflictPolicy) : (empty policy).All Q :=
  ⟨fun _ h => absurd h List.not_mem_nil, fun _ h => absurd h List.not_mem_nil⟩

theorem All.of_get? (h : r.All Q) {name : QualifiedName} (hd : r.get? name = some d) : Q d :=
  h.1 d (Table.mem_values_of_get? hd)

theorem All.send (h : r.All Q) (hd : Q d) (binding : Binding) :
    ∀ e ∈ (binding.send d r.byKind).values, Q e := by
  intro e he
  cases binding with
  | kind t =>
    rcases Table.mem_values_of_insert he with rfl | he
    · exact hd
    · exact h.2 e he
  | dynamic key => exact h.2 e he
  | placeholder sourceType => exact h.2 e he

theorem All.unsend (h : r.All Q) (binding : Binding) :
    ∀ e ∈ (binding.unsend r.byKind).values, Q e := by
  intro e he
  cases binding with
  | kind t => exact h.2 e (Table.mem_values_of_erase he)
  | dynamic key => exact h.2 e he
  | placeholder sourceType => exact h.2 e he

theorem All.store (h : r.All Q) (hd : Q d) : (r.store d).All Q := by
  rw [store_eq]
  refine ⟨fun e he => ?_, h.send hd d.binding⟩
  rcases Table.mem_values_of_insert he with rfl | he
  · exact hd
  · exact h.1 e he

/-- Binding a name gives a type that is there or the new one, and leaves no other. -/
theorem All.bind (h : r.All Q) {name : QualifiedName} {properties : List Property}
    {parent : Option Descriptor} {binding : Binding}
    (hfresh : Q (r.fresh name properties parent binding)) :
    Leaves (All Q) Q (r.bind name properties parent binding) := by
  rw [Registry.bind]
  dsimp only
  split
  · exact leaves_ok (h.store hfresh) hfresh
  · next existing hexisting =>
    have hold : Q existing := h.of_get? hexisting
    split
    · rw [indexByKind_eq]
      exact leaves_ok ⟨h.1, h.send hold _⟩ hold
    · split
      · exact leaves_ok (h.store hfresh) hfresh
      · rw [decide_eq]
        dsimp only
        split
        · refine leaves_error ?_ _
          exact h
        · refine leaves_ok ?_ hold
          cases binding with
          | kind t => exact ⟨h.1, h.send hold (.kind t)⟩
          | dynamic key => exact h
          | placeholder sourceType => exact h
        · refine leaves_ok (All.store ?_ hfresh) hfresh
          cases existing.binding with
          | kind t => exact ⟨h.1, h.unsend (.kind t)⟩
          | dynamic key => exact h
          | placeholder sourceType => exact h

/-- What a supertype brings along, if there is one, has no two properties of one name. -/
theorem nodup_above {parent : Option Descriptor} (hparent : ∀ p ∈ parent, p.Layered) :
    (((parent.map (·.properties)).getD []).map (·.name)).Nodup := by
  cases parent with
  | none => exact List.nodup_nil
  | some p => exact (hparent p rfl).nodup

theorem upkeep_layered : Upkeep (All Descriptor.Layered) Descriptor.Layered where
  found hr hd := hr.of_get? hd
  foundKind hr hd := hr.2 _ (Table.mem_values_of_get? hd)
  addEdge hr _ := hr
  bind hr hparent hmerge := by
    obtain ⟨hover, hnames⟩ := Property.continue_of_mergeProperties (nodup_above hparent) hmerge
    apply hr.bind
    apply Descriptor.layered_of _ hparent hnames
    rintro p ⟨⟩
    exact hover
  placeholder {r name sourceType parent} hr hparent := by
    rw [registerPlaceholder]
    split
    · next d hd => exact ⟨hr, hr.of_get? hd⟩
    · have hnew : Descriptor.Layered
          ⟨⟨r.next, name, ((parent.map (·.properties)).getD []).map Property.asInherited,
            .placeholder sourceType⟩, (parent.map Descriptor.chain).getD []⟩ := by
        apply Descriptor.layered_of _ hparent
        · rw [List.map_map]
          exact nodup_above hparent
        · rintro p ⟨⟩
          exact Property.continue_asInherited p.properties
      exact ⟨hr.store hnew, hnew⟩
  property {r name property} hr := by
    rw [registerProperty]
    split
    · exact leaves_error hr _
    · next d hd =>
      split
      · exact leaves_error hr _
      · next hnew =>
        have hupdated : Descriptor.Layered
            { d with serial := r.next, properties := d.properties ++ [property] } := by
          apply (hr.of_get? hd).append
          intro hmem
          obtain ⟨q, hq, hname⟩ := List.mem_map.mp hmem
          exact hnew (List.find?_isSome.mpr ⟨q, hq, decide_eq_true hname⟩)
        exact leaves_ok (hr.store hupdated) hupdated

end Registry

namespace Descriptor
open Registry

/-- The types that registries give out: as the answer to a request, by a look-up, or as the
supertype of such a type. The types that requests bring along were given out themselves, by the same
registry or by another one. -/
inductive Issued : Descriptor → Prop
  | answered {policy : ConflictPolicy} {requests : List Request} {d : Descriptor}
      (given : ∀ request ∈ requests, ∀ e ∈ request.given, Issued e)
      (answer : .ok d ∈ (empty policy).answers requests) : Issued d
  | found {policy : ConflictPolicy} {requests : List Request} {name : QualifiedName}
      {d : Descriptor} (given : ∀ request ∈ requests, ∀ e ∈ request.given, Issued e)
      (bound : ((empty policy).after requests).get? name = some d) : Issued d
  | foundKind {policy : ConflictPolicy} {requests : List Request} {k : Kind} {d : Descriptor}
      (given : ∀ request ∈ requests, ∀ e ∈ request.given, Issued e)
      (bound : ((empty policy).after requests).getKind? k = some d) : Issued d
  | listed {policy : ConflictPolicy} {requests : List Request} {d : Descriptor}
      (given : ∀ request ∈ requests, ∀ e ∈ request.given, Issued e)
      (mem : d ∈ ((empty policy).after requests).descriptors) : Issued d
  | extended {d p : Descriptor} (below : Issued d) (super : d.parent? = some p) : Issued p

theorem Issued.layered {d : Descriptor} (h : d.Issued) : d.Layered := by
  have hall : ∀ (policy : ConflictPolicy) {requests : List Request},
      (∀ request ∈ requests, ∀ e ∈ request.given, e.Layered) →
      ((empty policy).after requests).All Layered ∧
        ∀ d, .ok d ∈ (empty policy).answers requests → d.Layered :=
    fun policy _ hgiven => upkeep_layered.after (all_empty _ policy) hgiven
  induction h with
  | answered _ answer ih => exact (hall _ ih).2 _ answer
  | found _ bound ih => exact (hall _ ih).1.of_get? bound
  | foundKind _ bound ih => exact (hall _ ih).1.2 _ (Table.mem_values_of_get? bound)
  | listed _ mem ih => exact (hall _ ih).1.1 _ (List.mem_mergeSort.mp mem)
  | extended _ super ih => exact (ih.parent super).1

/-- In a type that a registry gives out, whatever was asked before and whatever the policy, no two
properties have one name, the names of every supertype come first and in its order, so that an
inherited property has the same place in both, and what is marked as inherited from the nearest
supertype is as it is there. -/
theorem inherited_keep_places {d : Descriptor} (h : d.Issued) :
    (d.properties.map (·.name)).Nodup ∧
      (∀ s ∈ d.supertypes, s.properties.map (·.name) <+: d.properties.map (·.name) ∧
        ∀ name ∈ s.properties.map (·.name),
          d.propertyIndex? name = s.properties.findIdx? (·.name = name)) ∧
      ∀ p, d.parent? = some p → ∀ (i : Nat) (q : Property), i < p.properties.length →
        d.properties[i]? = some q → q.inherited → ∃ q', p.properties[i]? = some q' ∧
          q.kind = q'.kind ∧ q.multiple = q'.multiple ∧ q.declaredType = q'.declaredType := by
  have hd := h.layered
  refine ⟨hd.nodup, fun s hs => ?_, fun p hp i q hi hq hmarked => ?_⟩
  · have hfirst := hd.names_prefix hs
    exact ⟨hfirst, fun name hname => findIdx?_of_prefix hfirst hname⟩
  · obtain ⟨-, hover⟩ := hd.parent hp
    have hq' := List.getElem?_eq_getElem hi
    obtain rfl := hover.inherited hq' hq hmarked
    exact ⟨p.properties[i], hq', rfl, rfl, rfl⟩

section Sample

def baseName : QualifiedName := ⟨"test", "Base"⟩
def derivedName : QualifiedName := ⟨"test", "Derived"⟩

def baseType : Descriptor :=
  ⟨⟨0, baseName, [.attr "label" "string", .attr "note" "string"], .dynamic "base"⟩, []⟩

def baseRequest : Request := .define ⟨[]⟩ ⟨baseName, baseType.properties, none⟩ (.dynamic "base")

/-- The type that the new one extends has got one more property by then, and the new one gets one of
the same name behind its own. -/
def derivedRequests : List Request :=
  [baseRequest, .property baseName (.attr "more" "string"),
    .define ⟨[]⟩ ⟨derivedName, [.child "label" "test.Base", .attr "own" "string"],
      some (.descriptor baseType)⟩ (.dynamic "derived"),
    .property derivedName (.attr "more" "string")]

def derivedType : Descriptor :=
  ⟨⟨3, derivedName, [.child "label" "test.Base", (Property.attr "note" "string").asInherited,
    .attr "own" "string", .attr "more" "string"], .dynamic "derived"⟩, baseType.chain⟩

theorem inherited_keep_places_derived :
    derivedType.Issued ∧ (derivedType.properties.map (·.name)).Nodup ∧
      (∀ s ∈ derivedType.supertypes,
        s.properties.map (·.name) <+: derivedType.properties.map (·.name) ∧
          ∀ name ∈ s.properties.map (·.name),
            derivedType.propertyIndex? name = s.properties.findIdx? (·.name = name)) ∧
      ∀ p, derivedType.parent? = some p → ∀ (i : Nat) (q : Property), i < p.properties.length →
        derivedType.properties[i]? = some q → q.inherited → ∃ q', p.properties[i]? = some q' ∧
          q.kind = q'.kind ∧ q.multiple = q'.multiple ∧ q.declaredType = q'.declaredType := by
  have hbase : baseType.Issued := by
    have hbound : ((empty .fail).after [baseRequest]).get? baseName = some baseType := by decide
    exact .found (by simp [baseRequest, Request.given]) hbound
  have hderived : derivedType.Issued := by
    have hbound : ((empty .fail).after derivedRequests).get? derivedName = some derivedType := by
      decide
    refine .found ?_ hbound
    simpa [derivedRequests, baseRequest, Request.given] using hbase
  exact ⟨hderived, inherited_keep_places hderived⟩

end Sample

end Descriptor

end Arbor
