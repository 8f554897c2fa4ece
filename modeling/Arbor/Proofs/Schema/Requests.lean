import Arbor.Schema.Registry

/-!
Histories of a registry. One request may bind many names: a kind is registered after the kinds that
it extends, and a failed request keeps what it has bound so far. All of it is done in small steps,
each of which records an extension or binds a name. What every small step keeps is therefore kept by
every sequence of requests, whether they succeed or fail.
-/
namespace Arbor

/-- A call that may change a registry. -/
inductive Request where
  | register (family : Family) (k : Kind)
  | define (family : Family) (definition : Definition) (binding : Binding)
  | placeholder (name : QualifiedName) (sourceType : String) (parent : Option Descriptor)
  | property (name : QualifiedName) (property : Property)

namespace Registry

/-- The answer to a request, and the registry that the request leaves. -/
def handle (r : Registry) : Request → Except SchemaError Descriptor × Registry
  | .register family k => r.register family k
  | .define family definition binding => r.define family definition binding
  | .placeholder name sourceType parent =>
      let (d, r) := r.registerPlaceholder name sourceType parent
      (.ok d, r)
  | .property name property => r.registerProperty name property

/-- The registry that a sequence of requests leaves. -/
def after (r : Registry) (requests : List Request) : Registry :=
  requests.foldl (fun r request => (r.handle request).2) r

@[simp] theorem after_nil (r : Registry) : r.after [] = r := rfl

@[simp] theorem after_cons (r : Registry) (request : Request) (requests : List Request) :
    r.after (request :: requests) = (r.handle request).2.after requests := rfl

theorem after_append (r : Registry) (first rest : List Request) :
    r.after (first ++ rest) = (r.after first).after rest := by
  simp [after]

/-- The answers to a sequence of requests. -/
def answers (r : Registry) : List Request → List (Except SchemaError Descriptor)
  | [] => []
  | request :: rest => (r.handle request).1 :: (r.handle request).2.answers rest

theorem resolveParent_descriptor
    (registerKind : Kind → Registry → Except SchemaError Descriptor × Registry)
    (name : QualifiedName) (binding : Binding) (d : Descriptor) (r : Registry) :
    resolveParent registerKind name binding (some (.descriptor d)) r =
      if d.qualifiedName = name then ((r.promotedParent name binding (.descriptor d)).map some, r)
      else if r.graph.wouldCreateCycle name d.qualifiedName then
        (.error (.circularInheritance name d.qualifiedName), r)
      else (.ok (some d), { r with graph := r.graph.addEdge name d.qualifiedName }) := rfl

theorem resolveParent_kind
    (registerKind : Kind → Registry → Except SchemaError Descriptor × Registry)
    (name : QualifiedName) (binding : Binding) (k : Kind) (r : Registry) :
    resolveParent registerKind name binding (some (.kind k)) r =
      if k.qualifiedName = name then ((r.promotedParent name binding (.kind k)).map some, r)
      else if r.graph.wouldCreateCycle name k.qualifiedName then
        (.error (.circularInheritance name k.qualifiedName), r)
      else
        let result := registerKind k { r with graph := r.graph.addEdge name k.qualifiedName }
        (result.1.map some, result.2) := rfl

/-- A relation between a registry and a later one that holds of each small step and goes on along
a chain of steps. -/
structure Onward (R : Registry → Registry → Prop) : Prop where
  refl (r : Registry) : R r r
  trans {r s t : Registry} : R r s → R s t → R r t
  addEdge (r : Registry) (child parent : QualifiedName) :
    R r { r with graph := r.graph.addEdge child parent }
  bind (r : Registry) (name : QualifiedName) (properties : List Property)
    (parent : Option Descriptor) (binding : Binding) :
    R r (r.bind name properties parent binding).2
  placeholder (r : Registry) (name : QualifiedName) (sourceType : String)
    (parent : Option Descriptor) : R r (r.registerPlaceholder name sourceType parent).2
  property (r : Registry) (name : QualifiedName) (property : Property) :
    R r (r.registerProperty name property).2

namespace Onward
variable {R : Registry → Registry → Prop}
  {registerKind : Kind → Registry → Except SchemaError Descriptor × Registry}

theorem resolveParent (h : Onward R) (hkind : ∀ k r, R r (registerKind k r).2)
    (name : QualifiedName) (binding : Binding) (parent : Option Parent) (r : Registry) :
    R r (resolveParent registerKind name binding parent r).2 := by
  cases parent with
  | none => exact h.refl r
  | some parent =>
    rw [Registry.resolveParent]
    dsimp only
    split
    · exact h.refl r
    · split
      · exact h.refl r
      · cases parent with
        | descriptor d => exact h.addEdge r _ _
        | kind k => exact h.trans (h.addEdge r _ _) (hkind k _)

theorem defineWith (h : Onward R) (hkind : ∀ k r, R r (registerKind k r).2)
    (definition : Definition) (binding : Binding) (r : Registry) :
    R r (defineWith registerKind definition binding r).2 := by
  have hparent := h.resolveParent hkind definition.qualifiedName binding definition.parent r
  rw [Registry.defineWith]
  split
  · next e r' hr' =>
    rw [hr'] at hparent
    exact hparent
  · next parent r' hr' =>
    rw [hr'] at hparent
    split
    · exact hparent
    · exact h.trans hparent (h.bind r' _ _ _ _)

theorem registerWithin (h : Onward R) (family : Family) (fuel : Nat) (k : Kind) (r : Registry) :
    R r (registerWithin family fuel k r).2 := by
  induction fuel generalizing k r with
  | zero => exact h.refl r
  | succ fuel ih =>
    rw [Registry.registerWithin]
    split
    · exact h.refl r
    · exact h.defineWith ih _ _ r

theorem handle (h : Onward R) (r : Registry) (request : Request) : R r (r.handle request).2 := by
  cases request with
  | register family k => exact h.registerWithin family _ k r
  | define family definition binding =>
    exact h.defineWith (fun k r => h.registerWithin family _ k r) definition binding r
  | placeholder name sourceType parent => exact h.placeholder r name sourceType parent
  | property name property => exact h.property r name property

theorem after (h : Onward R) (r : Registry) (requests : List Request) :
    R r (r.after requests) := by
  induction requests generalizing r with
  | nil => exact h.refl r
  | cons request requests ih => exact h.trans (h.handle r request) (ih _)

end Onward

end Registry

namespace Binding

/-- Finds `d` by the kind of a binding. -/
def send (b : Binding) (d : Descriptor) (kinds : Table String Descriptor) :
    Table String Descriptor :=
  match b with
  | .kind t => kinds.insert t d
  | _ => kinds

/-- Finds nothing by the kind of a binding. -/
def unsend (b : Binding) (kinds : Table String Descriptor) : Table String Descriptor :=
  match b with
  | .kind t => kinds.erase t
  | _ => kinds

theorem get?_send (b : Binding) (d : Descriptor) (kinds : Table String Descriptor) (t : String) :
    (b.send d kinds).get? t = if b = .kind t then some d else kinds.get? t := by
  cases b with
  | kind u => simp [send]
  | dynamic key => simp [send]
  | placeholder sourceType => simp [send]

theorem get?_unsend (b : Binding) (kinds : Table String Descriptor) (t : String) :
    (b.unsend kinds).get? t = if b = .kind t then none else kinds.get? t := by
  cases b with
  | kind u => simp [unsend]
  | dynamic key => simp [unsend]
  | placeholder sourceType => simp [unsend]

end Binding

namespace Registry
variable {r : Registry} {name : QualifiedName} {binding : Binding}

/-- The kind of a binding is all that finds a type besides its name. -/
theorem send_eq (r : Registry) (b : Binding) (d : Descriptor) :
    (match b with
      | .kind t => { r with byKind := r.byKind.insert t d }
      | _ => r) = { r with byKind := b.send d r.byKind } := by
  cases b with
  | kind t => rfl
  | dynamic key => rfl
  | placeholder sourceType => rfl

theorem unsend_eq (r : Registry) (b : Binding) :
    (match b with
      | .kind t => { r with byKind := r.byKind.erase t }
      | _ => r) = { r with byKind := b.unsend r.byKind } := by
  cases b with
  | kind t => rfl
  | dynamic key => rfl
  | placeholder sourceType => rfl

theorem indexByKind_eq (r : Registry) (d : Descriptor) :
    r.indexByKind d = { r with byKind := d.binding.send d r.byKind } :=
  send_eq r d.binding d

theorem store_eq (r : Registry) (d : Descriptor) :
    r.store d = { r with
      byName := r.byName.insert d.qualifiedName d
      byKind := d.binding.send d r.byKind
      next := r.next + 1 } :=
  indexByKind_eq _ d

theorem get?_store (r : Registry) (d : Descriptor) (n : QualifiedName) :
    (r.store d).get? n = if d.qualifiedName = n then some d else r.get? n := by
  rw [store_eq]
  exact Table.get?_insert r.byName _ _ _

theorem byKind_store (r : Registry) (d : Descriptor) (t : String) :
    (r.store d).byKind.get? t = if d.binding = .kind t then some d else r.byKind.get? t := by
  rw [store_eq]
  exact Binding.get?_send d.binding d r.byKind t

@[simp] theorem policy_store (r : Registry) (d : Descriptor) : (r.store d).policy = r.policy := by
  rw [store_eq]

@[simp] theorem asked_store (r : Registry) (d : Descriptor) : (r.store d).asked = r.asked := by
  rw [store_eq]

/-- The conflicts on record once the policy was asked about `c`. -/
def askedWith (r : Registry) (c : Conflict) : List Conflict :=
  if r.policy.isCustom then r.asked ++ [c] else r.asked

theorem decide_eq (r : Registry) (c : Conflict) :
    r.decide c = (r.policy.resolve c, { r with asked := r.askedWith c }) := by
  rw [decide, askedWith]
  split
  · rfl
  · rfl

/-- What binding a name may leave behind. A new type comes to a free name, to one that a
placeholder holds, or, against the type that holds it, by leave of the policy. -/
inductive Binds (r : Registry) (name : QualifiedName) (binding : Binding) : Registry → Prop where
  | known (d : Descriptor) (held : r.get? name = some d) (same : d.binding = binding) :
      Binds r name binding { r with byKind := binding.send d r.byKind }
  | fresh (d : Descriptor) (yields : ∀ e, r.get? name = some e → e.isPlaceholder)
      (named : d.qualifiedName = name) (bound : d.binding = binding) :
      Binds r name binding (r.store d)
  | refused (d : Descriptor) (held : r.get? name = some d) (other : d.binding ≠ binding)
      (final : d.isPlaceholder = false)
      (answer : r.policy.resolve ⟨name, d.binding, binding⟩ = .fail) :
      Binds r name binding { r with asked := r.askedWith ⟨name, d.binding, binding⟩ }
  | kept (d : Descriptor) (held : r.get? name = some d) (other : d.binding ≠ binding)
      (final : d.isPlaceholder = false)
      (answer : r.policy.resolve ⟨name, d.binding, binding⟩ = .keepExisting) :
      Binds r name binding { r with
        byKind := binding.send d r.byKind
        asked := r.askedWith ⟨name, d.binding, binding⟩ }
  | replaced (d e : Descriptor) (held : r.get? name = some d) (other : d.binding ≠ binding)
      (final : d.isPlaceholder = false)
      (answer : r.policy.resolve ⟨name, d.binding, binding⟩ = .overwrite)
      (named : e.qualifiedName = name) (bound : e.binding = binding) :
      Binds r name binding (store { r with
        byKind := d.binding.unsend r.byKind
        asked := r.askedWith ⟨name, d.binding, binding⟩ } e)

theorem binds_bind (r : Registry) (name : QualifiedName) (properties : List Property)
    (parent : Option Descriptor) (binding : Binding) :
    r.Binds name binding (r.bind name properties parent binding).2 := by
  rw [Registry.bind]
  dsimp only
  split
  · next hfree =>
    apply Binds.fresh
    · intro e he
      rw [hfree] at he
      cases he
    · rfl
    · rfl
  · next d hd =>
    split
    · next hsame =>
      dsimp only
      rw [indexByKind_eq, hsame]
      exact .known d hd hsame
    · next hother =>
      split
      · next hplaceholder =>
        apply Binds.fresh
        · intro e he
          rw [hd] at he
          rwa [← Option.some.inj he]
        · rfl
        · rfl
      · next hfinal =>
        rw [Bool.not_eq_true] at hfinal
        rw [decide_eq]
        dsimp only
        split
        · next answer => exact .refused d hd hother hfinal answer
        · next answer =>
          have hkept : r.Binds name binding _ := .kept d hd hother hfinal answer
          rw [← send_eq { r with asked := r.askedWith ⟨name, d.binding, binding⟩ }] at hkept
          exact hkept
        · next answer =>
          have hreplaced : r.Binds name binding _ :=
            .replaced d ⟨⟨r.next, name, properties, binding⟩, (parent.map Descriptor.chain).getD []⟩
              hd hother hfinal answer rfl rfl
          rw [← unsend_eq { r with asked := r.askedWith ⟨name, d.binding, binding⟩ }] at hreplaced
          exact hreplaced

theorem registerPlaceholder_cases (r : Registry) (name : QualifiedName) (sourceType : String)
    (parent : Option Descriptor) :
    (r.registerPlaceholder name sourceType parent).2 = r ∨
      ∃ d : Descriptor, r.get? name = none ∧ d.qualifiedName = name ∧
        d.binding = .placeholder sourceType ∧
        (r.registerPlaceholder name sourceType parent).2 = r.store d := by
  rw [registerPlaceholder]
  split
  · exact .inl rfl
  · next hfree =>
    dsimp only
    exact .inr ⟨_, hfree, rfl, rfl, rfl⟩

theorem registerProperty_cases (r : Registry) (name : QualifiedName) (property : Property) :
    (r.registerProperty name property).2 = r ∨
      ∃ d : Descriptor, r.get? name = some d ∧
        (r.registerProperty name property).2 =
          r.store { d with serial := r.next, properties := d.properties ++ [property] } := by
  rw [registerProperty]
  split
  · exact .inl rfl
  · next d hd =>
    split
    · exact .inl rfl
    · exact .inr ⟨d, hd, rfl⟩

theorem policy_of_binds {s : Registry} (h : r.Binds name binding s) : s.policy = r.policy := by
  cases h with
  | known d held same => rfl
  | fresh d yields named bound => exact policy_store r d
  | refused d held other final answer => rfl
  | kept d held other final answer => rfl
  | replaced d e held other final answer named bound => exact policy_store _ e

theorem onward_policy : Onward fun r s => s.policy = r.policy where
  refl _ := rfl
  trans hrs hst := hst.trans hrs
  addEdge _ _ _ := rfl
  bind r name properties parent binding :=
    policy_of_binds (r.binds_bind name properties parent binding)
  placeholder r name sourceType parent := by
    rcases r.registerPlaceholder_cases name sourceType parent with hs | ⟨d, -, -, -, hs⟩
    · rw [hs]
    · rw [hs, policy_store]
  property r name property := by
    rcases r.registerProperty_cases name property with hs | ⟨d, -, hs⟩
    · rw [hs]
    · rw [hs, policy_store]

/-- No request changes the policy. -/
theorem policy_after (r : Registry) (requests : List Request) :
    (r.after requests).policy = r.policy :=
  onward_policy.after r requests

/-- Every type is found by its own name. -/
def Named (r : Registry) : Prop := ∀ ⦃n d⦄, r.get? n = some d → d.qualifiedName = n

theorem named_empty (policy : ConflictPolicy) : (empty policy).Named := by
  intro n d hd
  cases hd

theorem Named.store (h : r.Named) (d : Descriptor) : (r.store d).Named := by
  intro n e he
  rw [get?_store] at he
  split at he
  · next hn => rw [← Option.some.inj he, hn]
  · exact h he

theorem Named.binds {s : Registry} (h : r.Named) (hs : r.Binds name binding s) : s.Named := by
  cases hs with
  | known d held same => exact h
  | fresh d yields named bound => exact h.store d
  | refused d held other final answer => exact h
  | kept d held other final answer => exact h
  | replaced d e held other final answer named bound =>
    apply Named.store
    exact h

theorem onward_named : Onward fun r s => r.Named → s.Named where
  refl _ h := h
  trans hrs hst h := hst (hrs h)
  addEdge _ _ _ h := h
  bind r name properties parent binding h := h.binds (r.binds_bind name properties parent binding)
  placeholder r name sourceType parent h := by
    rcases r.registerPlaceholder_cases name sourceType parent with hs | ⟨d, -, -, -, hs⟩
    · rwa [hs]
    · rw [hs]
      exact h.store d
  property r name property h := by
    rcases r.registerProperty_cases name property with hs | ⟨d, -, hs⟩
    · rwa [hs]
    · rw [hs]
      exact h.store _

theorem named_after (policy : ConflictPolicy) (requests : List Request) :
    ((empty policy).after requests).Named :=
  onward_named.after _ requests (named_empty policy)

/-- Two kinds that want one name. -/
def firstRival : Kind :=
  ⟨"SetStatement", ⟨"test", "SetStatement"⟩, [.attr "variable" "string"], none⟩

def secondRival : Kind := ⟨"OtherSetStatement", ⟨"test", "SetStatement"⟩, [], none⟩

end Registry

end Arbor
