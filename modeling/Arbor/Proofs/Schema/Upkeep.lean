import Arbor.Proofs.Schema.Requests

/-!
What registries keep and what the types that they give out have in common. An extension is recorded
only where it closes no circle, and a name is bound to a type only with the properties that come of
its supertype and its own. If these small steps keep a property of registries and give types of a
certain sort, then so does every sequence of requests, as long as the types that the requests bring
along are of that sort.
-/
namespace Arbor

/-- The types that a request brings along. -/
def Request.given : Request → List Descriptor
  | .define _ ⟨_, _, some (.descriptor d)⟩ _ => [d]
  | .placeholder _ _ (some d) => [d]
  | _ => []

namespace Registry
variable {r : Registry} {P : Registry → Prop} {Q : Descriptor → Prop}
  {registerKind : Kind → Registry → Except SchemaError Descriptor × Registry}

/-- The registry that is left is as `P` says, and so is with `Q` what is given, if anything is. -/
structure Leaves {α : Type} (P : Registry → Prop) (Q : α → Prop)
    (result : Except SchemaError α × Registry) : Prop where
  left : P result.2
  given : ∀ ⦃a⦄, result.1 = .ok a → Q a

/-- Small steps keep `P`, and the types that are found or made have `Q`. -/
structure Upkeep (P : Registry → Prop) (Q : Descriptor → Prop) : Prop where
  found {r : Registry} {name : QualifiedName} {d : Descriptor} : P r → r.get? name = some d → Q d
  foundKind {r : Registry} {k : Kind} {d : Descriptor} : P r → r.getKind? k = some d → Q d
  addEdge {r : Registry} {child parent : QualifiedName} : P r →
    r.graph.wouldCreateCycle child parent = false →
    P { r with graph := r.graph.addEdge child parent }
  bind {r : Registry} {name : QualifiedName} {own properties : List Property}
    {parent : Option Descriptor} {binding : Binding} : P r → (∀ p ∈ parent, Q p) →
    mergeProperties name ((parent.map (·.properties)).getD []) own = .ok properties →
    Leaves P Q (r.bind name properties parent binding)
  placeholder {r : Registry} {name : QualifiedName} {sourceType : String}
    {parent : Option Descriptor} : P r → (∀ p ∈ parent, Q p) →
    P (r.registerPlaceholder name sourceType parent).2 ∧
      Q (r.registerPlaceholder name sourceType parent).1
  property {r : Registry} {name : QualifiedName} {property : Property} : P r →
    Leaves P Q (r.registerProperty name property)

theorem leaves_error {α : Type} {Q : α → Prop} (hr : P r) (e : SchemaError) :
    Leaves P Q (.error e, r) :=
  ⟨hr, fun _ h => by cases h⟩

theorem leaves_ok {α : Type} {Q : α → Prop} {a : α} (hr : P r) (ha : Q a) :
    Leaves P Q (.ok a, r) :=
  ⟨hr, fun _ h => by cases h; exact ha⟩

/-- A supertype that is given stands for itself. -/
theorem Leaves.some {answer : Except SchemaError Descriptor} (h : Leaves P Q (answer, r)) :
    Leaves P (fun above : Option Descriptor => ∀ p ∈ above, Q p) (answer.map some, r) := by
  cases answer with
  | error e => exact leaves_error h.left e
  | ok p =>
    apply leaves_ok h.left
    rintro _ ⟨⟩
    exact h.given rfl

namespace Upkeep

theorem promotedParent (h : Upkeep P Q) (hr : P r) {name : QualifiedName} {binding : Binding}
    {parent : Parent} (hgiven : ∀ d, parent = .descriptor d → Q d) :
    Leaves P Q (r.promotedParent name binding parent, r) := by
  rw [Registry.promotedParent]
  split
  · exact leaves_error hr _
  · next existing hexisting =>
    split
    · cases parent with
      | descriptor d => exact leaves_ok hr (hgiven d rfl)
      | kind k => exact leaves_ok hr (h.found hr hexisting)
    · exact leaves_error hr _

theorem resolveParent (h : Upkeep P Q)
    (hkind : ∀ k r, P r → Leaves P Q (registerKind k r)) (hr : P r) {name : QualifiedName}
    {binding : Binding} {parent : Option Parent}
    (hgiven : ∀ d, parent = some (.descriptor d) → Q d) :
    Leaves P (fun above : Option Descriptor => ∀ p ∈ above, Q p)
      (resolveParent registerKind name binding parent r) := by
  cases parent with
  | none =>
    apply leaves_ok hr
    rintro _ ⟨⟩
  | some parent =>
    cases parent with
    | descriptor d =>
      have hd := hgiven d rfl
      rw [resolveParent_descriptor]
      split
      · apply Leaves.some
        apply h.promotedParent hr
        rintro e ⟨⟩
        exact hd
      · split
        · exact leaves_error hr _
        · next hcycle =>
          apply leaves_ok (h.addEdge hr (Bool.eq_false_iff.mpr hcycle))
          rintro _ ⟨⟩
          exact hd
    | kind k =>
      rw [resolveParent_kind]
      split
      · apply Leaves.some
        apply h.promotedParent hr
        rintro d ⟨⟩
      · split
        · exact leaves_error hr _
        · next hcycle =>
          exact (hkind k _ (h.addEdge hr (Bool.eq_false_iff.mpr hcycle))).some

theorem defineWith (h : Upkeep P Q) (hkind : ∀ k r, P r → Leaves P Q (registerKind k r)) (hr : P r)
    {definition : Definition} {binding : Binding}
    (hgiven : ∀ d, definition.parent = some (.descriptor d) → Q d) :
    Leaves P Q (defineWith registerKind definition binding r) := by
  have hparent : Leaves P (fun above : Option Descriptor => ∀ p ∈ above, Q p)
      (Registry.resolveParent registerKind definition.qualifiedName binding definition.parent r) :=
    h.resolveParent hkind hr hgiven
  rw [Registry.defineWith]
  split
  · next e s hs =>
    rw [hs] at hparent
    exact leaves_error hparent.left e
  · next above s hs =>
    rw [hs] at hparent
    split
    · exact leaves_error hparent.left _
    · next properties hmerge => exact h.bind hparent.left (hparent.given rfl) hmerge

theorem registerWithin (h : Upkeep P Q) (family : Family) (fuel : Nat) (k : Kind) (r : Registry)
    (hr : P r) : Leaves P Q (registerWithin family fuel k r) := by
  induction fuel generalizing k r with
  | zero => exact leaves_error hr _
  | succ fuel ih =>
    rw [Registry.registerWithin]
    split
    · next d hd =>
      exact leaves_ok hr (h.foundKind hr hd)
    · refine h.defineWith ih hr fun d hd => ?_
      obtain ⟨j, -, hj⟩ := Option.map_eq_some_iff.mp hd
      cases hj

/-- One request keeps what the small steps keep, whether it succeeds or fails. -/
theorem handle (h : Upkeep P Q) (hr : P r) {request : Request} (hgiven : ∀ d ∈ request.given, Q d) :
    Leaves P Q (r.handle request) := by
  cases request with
  | register family k => exact h.registerWithin family _ k r hr
  | define family definition binding =>
    refine h.defineWith (h.registerWithin family _) hr fun d hd => hgiven d ?_
    obtain ⟨name, properties, parent⟩ := definition
    obtain rfl : parent = some (.descriptor d) := hd
    exact List.mem_singleton_self d
  | placeholder name sourceType parent =>
    have hparent : ∀ p ∈ parent, Q p := by
      rintro p ⟨⟩
      exact hgiven p (List.mem_singleton_self p)
    obtain ⟨hleft, hgives⟩ := h.placeholder hr hparent
    exact leaves_ok hleft hgives
  | property name property => exact h.property hr

/-- Every sequence of requests keeps what the small steps keep, and gives no other types. -/
theorem after (h : Upkeep P Q) (hr : P r) {requests : List Request}
    (hgiven : ∀ request ∈ requests, ∀ d ∈ request.given, Q d) :
    P (r.after requests) ∧ ∀ d, .ok d ∈ r.answers requests → Q d := by
  induction requests generalizing r with
  | nil => exact ⟨hr, fun _ h => absurd h List.not_mem_nil⟩
  | cons request requests ih =>
    obtain ⟨hfirst, hrest⟩ := List.forall_mem_cons.mp hgiven
    have hstep := h.handle hr hfirst
    obtain ⟨hleft, hgives⟩ := ih hstep.left hrest
    refine ⟨hleft, fun d hd => ?_⟩
    rcases List.mem_cons.mp hd with hd | hd
    · exact hstep.given hd.symm
    · exact hgives d hd

end Upkeep

end Registry

end Arbor
