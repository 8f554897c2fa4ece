import Arbor.Proofs.Schema.Builtin
import Arbor.Proofs.Schema.Requests

/-!
How the index by kind follows the index by name. After any requests, a kind leads to the type that
it defined itself, which then has its name still, or to a type that the policy once kept against it.
A type of the second sort is not followed up: when it gets a property, or when the policy lets
another type take its name, the kind goes on leading to the type as it was.
-/
namespace Arbor
namespace Registry
variable {r s : Registry}

/-- The policy once kept the type `d`, of another binding, against the kind of type name `t`. -/
def Routed (r : Registry) (t : String) (d : Descriptor) : Prop :=
  ∃ c ∈ r.asked, c.qualifiedName = d.qualifiedName ∧ c.existing = d.binding ∧
    c.incoming = .kind t ∧ d.binding ≠ .kind t ∧ r.policy.resolve c = .keepExisting

/-- What a kind is found by has its name, unless the policy routed the kind there. -/
structure Indexed (r : Registry) : Prop where
  named : r.Named
  kinds {t : String} {d : Descriptor} : r.byKind.get? t = some d →
    (d.binding = .kind t ∧ r.get? d.qualifiedName = some d) ∨ r.Routed t d

theorem indexed_empty (policy : ConflictPolicy) : (empty policy).Indexed where
  named := named_empty policy
  kinds h := by cases h

theorem Routed.mono {t : String} {d : Descriptor} (h : r.Routed t d) (hpolicy : s.policy = r.policy)
    (hasked : ∀ c ∈ r.asked, c ∈ s.asked) : s.Routed t d := by
  obtain ⟨c, hc, hname, hold, hnew, hne, hkeep⟩ := h
  exact ⟨c, hasked c hc, hname, hold, hnew, hne, hpolicy ▸ hkeep⟩

theorem mem_askedWith {c e : Conflict} (h : e ∈ r.asked) : e ∈ r.askedWith c := by
  rw [askedWith]
  split
  · exact List.mem_append_left _ h
  · exact h

/-- Asking a policy changes neither index. -/
theorem Indexed.asking (h : r.Indexed) (c : Conflict) :
    ({ r with asked := r.askedWith c } : Registry).Indexed where
  named := h.named
  kinds hd := (h.kinds hd).imp id fun hrouted => hrouted.mono rfl fun _ => mem_askedWith

/-- A name can be given away once no kind leads to its holder as to its own type. -/
theorem Indexed.store (h : r.Indexed) {d : Descriptor}
    (hleft : ∀ e t, r.get? d.qualifiedName = some e → r.byKind.get? t = some e →
      e.binding = .kind t → d.binding = .kind t) : (r.store d).Indexed where
  named := h.named.store d
  kinds {t e} he := by
    rw [byKind_store] at he
    split at he
    · next hb =>
      obtain rfl := Option.some.inj he
      exact .inl ⟨hb, by rw [get?_store, if_pos rfl]⟩
    · next hb =>
      rcases h.kinds he with ⟨hown, hcurrent⟩ | hrouted
      · left
        constructor
        · exact hown
        · rw [get?_store, if_neg]
          · exact hcurrent
          · intro hn
            rw [← hn] at hcurrent
            exact hb (hleft e t hcurrent he hown)
      · exact .inr (hrouted.mono (policy_store r d) fun _ hc => asked_store r d ▸ hc)

/-- Leading the kind of a binding to the holder of a name, as its own type or as a routed one. -/
theorem Indexed.send (h : r.Indexed) {binding : Binding} {d : Descriptor}
    (hd : r.get? d.qualifiedName = some d)
    (hkind : ∀ t, binding = .kind t → d.binding = .kind t ∨ r.Routed t d) :
    ({ r with byKind := binding.send d r.byKind } : Registry).Indexed where
  named := h.named
  kinds {t e} he := by
    rw [Binding.get?_send] at he
    split at he
    · next hb =>
      obtain rfl := Option.some.inj he
      exact (hkind t hb).imp (fun hown => ⟨hown, hd⟩) id
    · exact h.kinds he

/-- A kind is led away from a type whose name is about to go. -/
theorem Indexed.unsend (h : r.Indexed) (binding : Binding) :
    ({ r with byKind := binding.unsend r.byKind } : Registry).Indexed where
  named := h.named
  kinds {t e} he := by
    rw [Binding.get?_unsend] at he
    split at he
    · cases he
    · exact h.kinds he

theorem mem_askedWith_of_keeps {c : Conflict} (h : r.policy.resolve c = .keepExisting) :
    c ∈ r.askedWith c := by
  have hcustom : r.policy.isCustom := by
    cases hp : r.policy with
    | fail => simp [hp, ConflictPolicy.resolve] at h
    | overwrite => simp [hp, ConflictPolicy.resolve] at h
    | custom decide => rfl
  simp [askedWith, hcustom]

theorem Indexed.binds (h : r.Indexed) {name : QualifiedName} {binding : Binding}
    (hs : r.Binds name binding s) : s.Indexed := by
  cases hs with
  | known d held same =>
    have hname := h.named held
    apply h.send (hname ▸ held)
    intro t ht
    exact .inl (same.trans ht)
  | fresh d yields named bound =>
    apply h.store
    intro e t he _ hown
    rw [named] at he
    have hplaceholder := yields e he
    rw [Descriptor.isPlaceholder, hown] at hplaceholder
    cases hplaceholder
  | refused d held other final answer => exact h.asking _
  | kept d held other final answer =>
    have hname := h.named held
    apply (h.asking ⟨name, d.binding, binding⟩).send (hname ▸ held)
    rintro t rfl
    exact .inr ⟨_, mem_askedWith_of_keeps answer, hname.symm, rfl, rfl, other, answer⟩
  | replaced d e held other final answer named bound =>
    apply ((h.asking ⟨name, d.binding, binding⟩).unsend d.binding).store
    intro e' t he hkind hown
    -- the old holder was found by its own kind alone, and that kind leads nowhere now
    rw [named] at he
    obtain rfl := Option.some.inj (held.symm.trans he)
    rw [Binding.get?_unsend, if_pos hown] at hkind
    cases hkind

theorem onward_indexed : Onward fun r s => r.Indexed → s.Indexed where
  refl _ h := h
  trans hrs hst h := hst (hrs h)
  addEdge _ _ _ h := ⟨h.named, h.kinds⟩
  bind r name properties parent binding h := h.binds (r.binds_bind name properties parent binding)
  placeholder r name sourceType parent h := by
    rcases r.registerPlaceholder_cases name sourceType parent with hs | ⟨d, hfree, rfl, -, hs⟩
    · rwa [hs]
    · rw [hs]
      apply h.store
      intro e t he
      rw [hfree] at he
      cases he
  property r name property h := by
    rcases r.registerProperty_cases name property with hs | ⟨d, hd, hs⟩
    · rwa [hs]
    · rw [hs]
      apply h.store
      intro e t he _ hown
      have hname : d.qualifiedName = name := h.named hd
      obtain rfl := Option.some.inj (hd.symm.trans (hname ▸ he))
      exact hown

theorem indexed_after (policy : ConflictPolicy) (requests : List Request) :
    ((empty policy).after requests).Indexed :=
  onward_indexed.after _ requests (indexed_empty policy)

/-- A kind that defined its type leads to what has the name of that type. Any other kind leads
where the policy once routed it. -/
theorem getKind?_current {policy : ConflictPolicy} {requests : List Request} {k : Kind}
    {d : Descriptor} (h : ((empty policy).after requests).getKind? k = some d) :
    (d.binding = .kind k.typeName ∧ ((empty policy).after requests).get? d.qualifiedName = some d) ∨
      ((empty policy).after requests).Routed k.typeName d :=
  (indexed_after policy requests).kinds h

/-- Policies that never keep the old type route nothing, so there every kind leads to what has the
name. -/
theorem current_of_never_keeps {policy : ConflictPolicy}
    (hpolicy : ∀ c, policy.resolve c ≠ .keepExisting) {requests : List Request} {k : Kind}
    {d : Descriptor} (h : ((empty policy).after requests).getKind? k = some d) :
    ((empty policy).after requests).get? d.qualifiedName = some d := by
  rcases (indexed_after policy requests).kinds h with ⟨-, hname⟩ | ⟨c, -, -, -, -, -, hkeep⟩
  · exact hname
  · rw [policy_after] at hkeep
    exact absurd hkeep (hpolicy c)

/-- The type of the first kind gets a property after the second has asked for the name. -/
def rivalRequests : List Request :=
  [.register ⟨[firstRival, secondRival]⟩ firstRival,
    .register ⟨[firstRival, secondRival]⟩ secondRival,
    .property firstRival.qualifiedName (.attr "note" "string")]

theorem getKind?_current_secondRival :
    ((empty (.custom fun _ => .keepExisting)).after rivalRequests).getKind? secondRival =
        some (firstRival.descriptor 0) ∧
      (((firstRival.descriptor 0).binding = .kind secondRival.typeName ∧
          ((empty (.custom fun _ => .keepExisting)).after rivalRequests).get?
            firstRival.qualifiedName = some (firstRival.descriptor 0)) ∨
        ((empty (.custom fun _ => .keepExisting)).after rivalRequests).Routed
          secondRival.typeName (firstRival.descriptor 0)) :=
  ⟨by decide, getKind?_current (by decide)⟩

/-- Under a policy that keeps the old type, the kind that was sent to it goes on leading to it when
a property is added, though its name then has a type with that property. -/
theorem getKind?_behind_name :
    ¬ ∀ (policy : ConflictPolicy) (requests : List Request) (k : Kind) (d : Descriptor),
      ((empty policy).after requests).getKind? k = some d →
        ((empty policy).after requests).get? d.qualifiedName = some d := by
  intro h
  have hname := h (.custom fun _ => .keepExisting) rivalRequests secondRival
    (firstRival.descriptor 0) (by decide)
  revert hname
  decide

end Registry

end Arbor
