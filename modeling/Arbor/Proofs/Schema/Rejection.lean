import Arbor.Proofs.Schema.Reachability
import Arbor.Proofs.Schema.Requests

/-!
What a refused definition leaves behind. Names and kinds lead where they led before. But that one
type extends another is recorded before the properties and the name are looked at, so it stays on
record when one of these is the reason of the refusal. From then on the registry goes along with one
that never met the definition, up to the first type that it refuses for closing a circle through the
extension on record.
-/
namespace Arbor

namespace Registry
variable {r s : Registry} {α : Type}

/-- Looking up a name or a kind gives the same in both registries. -/
def SameTypes (r s : Registry) : Prop := s.byName = r.byName ∧ s.byKind = r.byKind

/-- The registries differ in nothing that a request reads, except that `s` has the extensions
`extra` on record, too. -/
structure AlikeBut (extra : List (QualifiedName × QualifiedName)) (r s : Registry) : Prop where
  byName : s.byName = r.byName
  byKind : s.byKind = r.byKind
  policy : s.policy = r.policy
  next : s.next = r.next
  edges (e : QualifiedName × QualifiedName) : e ∈ s.graph.edges ↔ e ∈ r.graph.edges ∨ e ∈ extra

/-- The answer is that a type would close a circle, and there is one through the extension `e`. -/
def ClosesThrough (e : QualifiedName × QualifiedName)
    (result : Except SchemaError α × Registry) : Prop :=
  ∃ child parent, result.1 = .error (.circularInheritance child parent) ∧
    result.2.graph.Reaches parent e.1 ∧ result.2.graph.Reaches e.2 child

/-- The second registry goes along with the first one, or it closes a circle through one of the
extensions `extra`. -/
def GoesAlong (extra : List (QualifiedName × QualifiedName))
    (step : Registry → Except SchemaError α × Registry) : Prop :=
  ∀ ⦃r s⦄, r.AlikeBut extra s →
    ((step s).1 = (step r).1 ∧ (step r).2.AlikeBut extra (step s).2) ∨
      ∃ e ∈ extra, ClosesThrough e (step s)

/-- The answers of `r` and `s` are the same up to a request that `s` refuses for closing a circle
through the extension `e`. -/
def PartsThrough (e : QualifiedName × QualifiedName) (r s : Registry)
    (requests : List Request) : Prop :=
  ∃ earlier request later, requests = earlier ++ request :: later ∧
    s.answers earlier = r.answers earlier ∧ (r.after earlier).SameTypes (s.after earlier) ∧
    ClosesThrough e ((s.after earlier).handle request)

section Steps
variable {extra : List (QualifiedName × QualifiedName)}
  {registerKind : Kind → Registry → Except SchemaError Descriptor × Registry}

theorem AlikeBut.sameTypes (h : r.AlikeBut extra s) : r.SameTypes s := ⟨h.byName, h.byKind⟩

theorem AlikeBut.get?_eq (h : r.AlikeBut extra s) (name : QualifiedName) :
    s.get? name = r.get? name := by
  rw [get?, get?, h.byName]

theorem AlikeBut.getKind?_eq (h : r.AlikeBut extra s) (k : Kind) :
    s.getKind? k = r.getKind? k := by
  rw [getKind?, getKind?, h.byKind]

theorem AlikeBut.store (h : r.AlikeBut extra s) (d : Descriptor) :
    (r.store d).AlikeBut extra (s.store d) := by
  rw [store_eq, store_eq]
  exact {
    byName := by rw [h.byName]
    byKind := by rw [h.byKind]
    policy := h.policy
    next := by rw [h.next]
    edges := h.edges }

theorem AlikeBut.withKinds (h : r.AlikeBut extra s)
    (change : Table String Descriptor → Table String Descriptor) (asked asked' : List Conflict) :
    ({ r with byKind := change r.byKind, asked } : Registry).AlikeBut extra
      { s with byKind := change s.byKind, asked := asked' } where
  byName := h.byName
  byKind := by rw [h.byKind]
  policy := h.policy
  next := h.next
  edges := h.edges

theorem AlikeBut.addEdge (h : r.AlikeBut extra s) (child parent : QualifiedName) :
    ({ r with graph := r.graph.addEdge child parent } : Registry).AlikeBut extra
      { s with graph := s.graph.addEdge child parent } where
  byName := h.byName
  byKind := h.byKind
  policy := h.policy
  next := h.next
  edges e := by
    rw [InheritanceGraph.mem_edges_addEdge, InheritanceGraph.mem_edges_addEdge, h.edges e]
    tauto

theorem goesAlong_bind (name : QualifiedName) (properties : List Property)
    (parent : Option Descriptor) (binding : Binding) :
    GoesAlong extra fun r => r.bind name properties parent binding := by
  intro r s h
  left
  simp only [Registry.bind, h.get?_eq, h.next]
  cases r.get? name with
  | none =>
    dsimp only
    exact ⟨rfl, h.store _⟩
  | some existing =>
    dsimp only
    split
    · rw [indexByKind_eq, indexByKind_eq]
      exact ⟨rfl, h.withKinds _ r.asked s.asked⟩
    · split
      · exact ⟨rfl, h.store _⟩
      · have hresolve : s.policy.resolve ⟨name, existing.binding, binding⟩ =
            r.policy.resolve ⟨name, existing.binding, binding⟩ := by rw [h.policy]
        rw [decide_eq, decide_eq, hresolve]
        cases r.policy.resolve ⟨name, existing.binding, binding⟩ with
        | fail => exact ⟨rfl, h.withKinds id _ _⟩
        | keepExisting =>
          refine ⟨rfl, ?_⟩
          cases binding with
          | kind t => exact h.withKinds (·.insert t existing) _ _
          | dynamic key => exact h.withKinds id _ _
          | placeholder sourceType => exact h.withKinds id _ _
        | overwrite =>
          refine ⟨rfl, AlikeBut.store ?_ _⟩
          cases existing.binding with
          | kind t => exact h.withKinds (·.erase t) _ _
          | dynamic key => exact h.withKinds id _ _
          | placeholder sourceType => exact h.withKinds id _ _

theorem AlikeBut.promotedParent_eq (h : r.AlikeBut extra s) (name : QualifiedName)
    (binding : Binding) (parent : Parent) :
    s.promotedParent name binding parent = r.promotedParent name binding parent := by
  rw [promotedParent, promotedParent, h.get?_eq]

/-- The search for circles finds as much in the second registry, or more because of `extra`. -/
theorem AlikeBut.wouldCreateCycle_cases (h : r.AlikeBut extra s) (child parent : QualifiedName) :
    s.graph.wouldCreateCycle child parent = r.graph.wouldCreateCycle child parent ∨
      s.graph.wouldCreateCycle child parent ∧
        ∃ e ∈ extra, s.graph.Reaches parent e.1 ∧ s.graph.Reaches e.2 child := by
  cases hs : s.graph.wouldCreateCycle child parent with
  | true =>
    have hreach := (s.graph.wouldCreateCycle_eq_true_iff child parent).mp hs
    rcases InheritanceGraph.reaches_or_through h.edges hreach with hr | hthrough
    · exact .inl ((r.graph.wouldCreateCycle_eq_true_iff child parent).mpr hr).symm
    · exact .inr ⟨rfl, hthrough⟩
  | false =>
    left
    symm
    rw [Bool.eq_false_iff] at hs ⊢
    intro hr
    have hreach := (r.graph.wouldCreateCycle_eq_true_iff child parent).mp hr
    exact hs ((s.graph.wouldCreateCycle_eq_true_iff child parent).mpr
      (hreach.mono fun e he => (h.edges e).mpr (.inl he)))

theorem goesAlong_resolveParent (hkind : ∀ k, GoesAlong extra (registerKind k))
    (name : QualifiedName) (binding : Binding) (parent : Option Parent) :
    GoesAlong extra (resolveParent registerKind name binding parent) := by
  intro r s h
  cases parent with
  | none => exact .inl ⟨rfl, h⟩
  | some parent =>
    simp only [resolveParent]
    by_cases hown : (parentIdentity parent).1 = name
    · rw [if_pos hown, if_pos hown, h.promotedParent_eq]
      exact .inl ⟨rfl, h⟩
    · simp only [if_neg hown]
      rcases h.wouldCreateCycle_cases name (parentIdentity parent).1 with hsame | ⟨hs, hthrough⟩
      · rw [hsame]
        cases r.graph.wouldCreateCycle name (parentIdentity parent).1 with
        | true => exact .inl ⟨rfl, h⟩
        | false =>
          have hnext := h.addEdge name (parentIdentity parent).1
          cases parent with
          | descriptor d => exact .inl ⟨rfl, hnext⟩
          | kind k =>
            rcases hkind k hnext with ⟨hanswer, halike⟩ | ⟨e, he, child, above, herror, hcircle⟩
            · exact .inl ⟨congrArg (Except.map some) hanswer, halike⟩
            · exact .inr ⟨e, he, child, above, congrArg (Except.map some) herror, hcircle⟩
      · rw [if_pos hs]
        obtain ⟨e, he, hcircle⟩ := hthrough
        exact .inr ⟨e, he, name, _, rfl, hcircle⟩

theorem goesAlong_defineWith (hkind : ∀ k, GoesAlong extra (registerKind k))
    (definition : Definition) (binding : Binding) :
    GoesAlong extra (defineWith registerKind definition binding) := by
  intro r s h
  rw [defineWith, defineWith]
  have hparent := goesAlong_resolveParent hkind definition.qualifiedName binding definition.parent h
  rcases hr : resolveParent registerKind definition.qualifiedName binding definition.parent r
    with ⟨answer, r'⟩
  rcases hs : resolveParent registerKind definition.qualifiedName binding definition.parent s
    with ⟨answer', s'⟩
  rw [hr, hs] at hparent
  rcases hparent with ⟨hsame, halike⟩ | ⟨e, he, child, above, herror, hcircle⟩
  · obtain rfl : answer' = answer := hsame
    cases answer' with
    | error e => exact .inl ⟨rfl, halike⟩
    | ok parent =>
      dsimp only
      split
      · exact .inl ⟨rfl, halike⟩
      · exact goesAlong_bind _ _ _ _ halike
  · obtain rfl : answer' = .error (.circularInheritance child above) := herror
    exact .inr ⟨e, he, child, above, rfl, hcircle⟩

theorem goesAlong_registerWithin (family : Family) (fuel : Nat) (k : Kind) :
    GoesAlong extra (registerWithin family fuel k) := by
  induction fuel generalizing k with
  | zero => exact fun r s h => .inl ⟨rfl, h⟩
  | succ fuel ih =>
    intro r s h
    simp only [registerWithin, h.getKind?_eq]
    cases r.getKind? k with
    | some d => exact .inl ⟨rfl, h⟩
    | none => exact goesAlong_defineWith ih _ _ h

theorem goesAlong_handle (request : Request) : GoesAlong extra (handle · request) := by
  intro r s h
  cases request with
  | register family k => exact goesAlong_registerWithin family _ k h
  | define family definition binding =>
    exact goesAlong_defineWith (goesAlong_registerWithin family _) definition binding h
  | placeholder name sourceType parent =>
    left
    simp only [handle, registerPlaceholder, h.get?_eq, h.next]
    cases r.get? name with
    | some d => exact ⟨rfl, h⟩
    | none =>
      dsimp only
      exact ⟨rfl, h.store _⟩
  | property name property =>
    left
    simp only [handle, registerProperty, h.get?_eq, h.next]
    cases r.get? name with
    | none => exact ⟨rfl, h⟩
    | some d =>
      dsimp only
      split
      · exact ⟨rfl, h⟩
      · exact ⟨rfl, h.store _⟩

/-- Whole sequences of requests, up to the first circle through one of the extensions. -/
theorem AlikeBut.requests (h : r.AlikeBut extra s) (requests : List Request) :
    (s.answers requests = r.answers requests ∧
        (r.after requests).AlikeBut extra (s.after requests)) ∨
      ∃ e ∈ extra, PartsThrough e r s requests := by
  induction requests generalizing r s with
  | nil => exact .inl ⟨rfl, h⟩
  | cons request requests ih =>
    rcases goesAlong_handle request h with ⟨hanswer, halike⟩ | ⟨e, he, hcircle⟩
    · rcases ih halike with ⟨hrest, hend⟩ |
        ⟨e, he, earlier, next, later, rfl, hrest, hend, hcircle⟩
      · exact .inl ⟨by rw [answers, answers, hanswer, hrest], hend⟩
      · refine .inr ⟨e, he, request :: earlier, next, later, rfl, ?_, hend, hcircle⟩
        rw [answers, answers, hanswer, hrest]
    · exact .inr ⟨e, he, [], request, requests, rfl, rfl, h.sameTypes, hcircle⟩

end Steps

section Refusals
variable {name : QualifiedName} {properties : List Property} {parent : Option Descriptor}
  {binding : Binding} {definition : Definition} {e : SchemaError}

theorem AlikeBut.refl (r : Registry) : r.AlikeBut [] r := ⟨rfl, rfl, rfl, rfl, by simp⟩

theorem mergeProperties_eq_error {inherited own : List Property}
    (h : mergeProperties name inherited own = .error e) :
    ∃ property, e = .duplicateProperty name property := by
  rw [mergeProperties] at h
  split at h
  · next property _ => exact ⟨property, (Except.error.inj h).symm⟩
  · cases h

/-- A refused name changes nothing but the list of conflicts. -/
theorem bind_eq_error (h : r.bind name properties parent binding = (.error e, s)) :
    (∃ existing, e = .conflict name existing binding) ∧ r.AlikeBut [] s := by
  rw [Registry.bind] at h
  dsimp only at h
  split at h
  · cases h
  · next existing _ =>
    split at h
    · cases h
    · split at h
      · cases h
      · rw [decide_eq] at h
        dsimp only at h
        split at h
        · cases h
          exact ⟨⟨existing.binding, rfl⟩, (AlikeBut.refl r).withKinds id _ _⟩
        · cases h
        · cases h

/-- A supertype at hand is refused before anything is done. If it is accepted, that it is extended
is recorded, unless the two types have one name. -/
theorem resolveParent_cases
    (registerKind : Kind → Registry → Except SchemaError Descriptor × Registry)
    (name : QualifiedName) (binding : Binding) {parent : Option Parent}
    (hparent : ∀ k, parent ≠ some (.kind k)) (r : Registry) :
    (∃ e, resolveParent registerKind name binding parent r = (.error e, r)) ∨
      ∃ above s extra, resolveParent registerKind name binding parent r = (.ok above, s) ∧
        r.AlikeBut extra s ∧ ∀ x ∈ extra, ∃ d, parent = some (.descriptor d) ∧
          d.qualifiedName ≠ name ∧ x = (name, d.qualifiedName) := by
  cases parent with
  | none => exact .inr ⟨none, r, [], rfl, .refl r, by simp⟩
  | some parent =>
    cases parent with
    | kind k => exact absurd rfl (hparent k)
    | descriptor d =>
      rw [resolveParent_descriptor]
      by_cases hown : d.qualifiedName = name
      · rw [if_pos hown]
        cases r.promotedParent name binding (.descriptor d) with
        | error e => exact .inl ⟨e, rfl⟩
        | ok above => exact .inr ⟨some above, r, [], rfl, .refl r, by simp⟩
      · rw [if_neg hown]
        cases r.graph.wouldCreateCycle name d.qualifiedName with
        | true => exact .inl ⟨_, rfl⟩
        | false =>
          refine .inr ⟨some d, _, [(name, d.qualifiedName)], rfl, ⟨rfl, rfl, rfl, rfl, ?_⟩, ?_⟩
          · intro e
            rw [InheritanceGraph.mem_edges_addEdge, List.mem_singleton]
          · intro x hx
            exact ⟨d, rfl, hown, List.mem_singleton.mp hx⟩

theorem AlikeBut.then {extra : List (QualifiedName × QualifiedName)} {t : Registry}
    (h : r.AlikeBut extra s) (ht : s.AlikeBut [] t) : r.AlikeBut extra t where
  byName := ht.byName.trans h.byName
  byKind := ht.byKind.trans h.byKind
  policy := ht.policy.trans h.policy
  next := ht.next.trans h.next
  edges e := by simpa [h.edges e] using ht.edges e

/-- A refused definition leaves its extension on record at most, and that only where its properties
or its name were the reason. -/
theorem exists_alikeBut_of_refused {family : Family}
    (hrefused : r.define family definition binding = (.error e, s))
    (hparent : ∀ k, definition.parent ≠ some (.kind k)) :
    ∃ extra, r.AlikeBut extra s ∧ ∀ x ∈ extra, ∃ d,
      definition.parent = some (.descriptor d) ∧ d.qualifiedName ≠ definition.qualifiedName ∧
      x = (definition.qualifiedName, d.qualifiedName) ∧
      ((∃ property, e = .duplicateProperty definition.qualifiedName property) ∨
        ∃ existing, e = .conflict definition.qualifiedName existing binding) := by
  rw [define, defineWith] at hrefused
  rcases resolveParent_cases (registerWithin family (family.kinds.length + 1))
    definition.qualifiedName binding hparent r with ⟨e', hr⟩ | ⟨above, t, extra, hr, halike, hextra⟩
  · rw [hr] at hrefused
    obtain ⟨-, rfl⟩ := Prod.mk.inj hrefused
    exact ⟨[], .refl r, by simp⟩
  · rw [hr] at hrefused
    dsimp only at hrefused
    cases hmerge : mergeProperties definition.qualifiedName
        ((above.map (·.properties)).getD []) definition.properties with
    | error e' =>
      rw [hmerge] at hrefused
      obtain ⟨herror, rfl⟩ := Prod.mk.inj hrefused
      obtain rfl := Except.error.inj herror
      refine ⟨extra, halike, fun x hx => ?_⟩
      obtain ⟨d, hd, hne, rfl⟩ := hextra x hx
      exact ⟨d, hd, hne, rfl, .inl (mergeProperties_eq_error hmerge)⟩
    | ok merged =>
      rw [hmerge] at hrefused
      obtain ⟨hconflict, hbound⟩ := bind_eq_error hrefused
      refine ⟨extra, halike.then hbound, fun x hx => ?_⟩
      obtain ⟨d, hd, hne, rfl⟩ := hextra x hx
      exact ⟨d, hd, hne, rfl, .inr hconflict⟩

/-- After a definition that is refused, and that extends nothing or a type at hand, the same types
are looked up, and later requests are answered as they are without it. Or else the definition had an
accepted supertype of another name and was refused for its properties or its name, and the answers
are the same up to a request that is refused for closing a circle, one that goes through the
extension that the definition left on record. -/
theorem answers_of_refused {family : Family}
    (hrefused : r.define family definition binding = (.error e, s))
    (hparent : ∀ k, definition.parent ≠ some (.kind k)) (requests : List Request) :
    (s.answers requests = r.answers requests ∧ (r.after requests).SameTypes (s.after requests)) ∨
      ∃ d, definition.parent = some (.descriptor d) ∧
        d.qualifiedName ≠ definition.qualifiedName ∧
        ((∃ property, e = .duplicateProperty definition.qualifiedName property) ∨
          ∃ existing, e = .conflict definition.qualifiedName existing binding) ∧
        PartsThrough (definition.qualifiedName, d.qualifiedName) r s requests := by
  obtain ⟨extra, halike, hextra⟩ := exists_alikeBut_of_refused hrefused hparent
  rcases halike.requests requests with ⟨hanswers, hend⟩ | ⟨x, hx, hparts⟩
  · exact .inl ⟨hanswers, hend.sameTypes⟩
  · obtain ⟨d, hd, hne, rfl, hreason⟩ := hextra x hx
    exact .inr ⟨d, hd, hne, hreason, hparts⟩

end Refusals

section Sample

/-- A name that a placeholder holds. -/
def phraseName : QualifiedName := ⟨"test", "Phrase"⟩

def clauseName : QualifiedName := ⟨"test", "Clause"⟩

def phrasePlaceholder : Descriptor := ⟨⟨0, phraseName, [], .placeholder "PhraseContext"⟩, []⟩

def phraseRequest : Request := .placeholder phraseName "PhraseContext" none

/-- A definition that extends the placeholder and declares a property twice. -/
def doubledClause : Definition :=
  ⟨clauseName, [.attr "text" "string", .attr "text" "string"],
    some (.descriptor phrasePlaceholder)⟩

def clauseType : Descriptor := ⟨⟨1, clauseName, [.attr "text" "string"], .dynamic "clause"⟩, []⟩

/-- A type of the refused name that extends nothing, and then one in place of the placeholder that
extends it. -/
def clauseThenPhrase : List Request :=
  [.define ⟨[]⟩ ⟨clauseName, [.attr "text" "string"], none⟩ (.dynamic "clause"),
    .define ⟨[]⟩ ⟨phraseName, [], some (.descriptor clauseType)⟩ (.dynamic "phrase")]

/-- The registry that the definition comes to. -/
def phraseRegistry : Registry := (empty .fail).after [phraseRequest]

theorem answers_of_refused_doubledClause :
    ∃ s, phraseRegistry.define ⟨[]⟩ doubledClause (.dynamic "clause") =
        (.error (.duplicateProperty clauseName "text"), s) ∧
      (∀ k, doubledClause.parent ≠ some (.kind k)) ∧
      ((s.answers clauseThenPhrase = phraseRegistry.answers clauseThenPhrase ∧
          (phraseRegistry.after clauseThenPhrase).SameTypes (s.after clauseThenPhrase)) ∨
        ∃ d, doubledClause.parent = some (.descriptor d) ∧ d.qualifiedName ≠ clauseName ∧
          ((∃ property, SchemaError.duplicateProperty clauseName "text" =
              .duplicateProperty clauseName property) ∨
            ∃ existing, SchemaError.duplicateProperty clauseName "text" =
              .conflict clauseName existing (.dynamic "clause")) ∧
          PartsThrough (clauseName, d.qualifiedName) phraseRegistry s clauseThenPhrase) := by
  have hrefused : phraseRegistry.define ⟨[]⟩ doubledClause (.dynamic "clause") =
      (.error (.duplicateProperty clauseName "text"), _) := rfl
  have hparent : ∀ k, doubledClause.parent ≠ some (.kind k) := by
    intro k h
    cases h
  exact ⟨_, hrefused, hparent, answers_of_refused hrefused hparent clauseThenPhrase⟩

/-- A definition that is refused for its properties may be answered for by another one: a type of
the refused name cannot be extended then, though it extends nothing itself. -/
theorem answers_of_refused_differ :
    ¬ ∀ (policy : ConflictPolicy) (requests : List Request) (family : Family)
      (definition : Definition) (binding : Binding) (e : SchemaError) (s : Registry)
      (later : List Request),
      ((empty policy).after requests).define family definition binding = (.error e, s) →
        (∀ k, definition.parent ≠ some (.kind k)) →
        s.answers later = ((empty policy).after requests).answers later := by
  intro h
  have hsame := h .fail [phraseRequest] ⟨[]⟩ doubledClause (.dynamic "clause") _ _ clauseThenPhrase
    rfl (by intro k hk; cases hk)
  have hanswered := congrArg (List.map Except.toOption) hsame
  revert hanswered
  decide

end Sample

end Registry

end Arbor
