import Arbor.Proofs.Schema.Families
import Arbor.Proofs.Schema.Rejection

/-!
When a type is refused for closing a circle. The extensions on record decide, and these may differ
from what the types extend: they stay when a definition is refused or when another type takes the
name, and a placeholder comes without one. As long as only free names are bound, to types whose
supertype is there, and every extension is recorded, the record is in step with the types, and the
circles that are found are those that the types would close.
-/
namespace Arbor
namespace Registry
variable {r s : Registry} {n m : QualifiedName} {d e p : Descriptor} {family : Family}
  {definition : Definition} {binding : Binding}

/-- The answer is that a type would close a circle. -/
def ReportsCircle (result : Except SchemaError Descriptor × Registry) : Prop :=
  ∃ child parent, result.1 = .error (.circularInheritance child parent)

/-- The type or a later one with the same supertypes has the name of the type. -/
def Knows (r : Registry) (d : Descriptor) : Prop :=
  ∃ e, r.get? d.qualifiedName = some e ∧ e.supertypes = d.supertypes

/-- The extensions on record are those of the types. -/
structure InStep (r : Registry) : Prop where
  named : r.Named
  recorded : ∀ ⦃n d p⦄, r.get? n = some d → d.parent? = some p → r.graph.Extends n p.qualifiedName
  held : ∀ ⦃n d p⦄, r.get? n = some d → d.parent? = some p → r.Knows p
  taken : ∀ ⦃c q⦄, r.graph.Extends c q →
    ∃ d p, r.get? c = some d ∧ d.parent? = some p ∧ p.qualifiedName = q

theorem parent?_eq_some_iff : d.parent? = some p ↔ d.supertypes = p.chain := by
  rw [Descriptor.parent?]
  cases d.supertypes with
  | nil => simp [Descriptor.chain]
  | cons entry rest =>
    rw [Option.some_inj, Descriptor.chain, List.cons.injEq]
    constructor
    · rintro rfl
      exact ⟨rfl, rfl⟩
    · rintro ⟨rfl, rfl⟩
      rfl

theorem parent?_congr (h : e.supertypes = d.supertypes) : e.parent? = d.parent? := by
  rw [Descriptor.parent?, h, Descriptor.parent?]

section Finding

/-- What the types lead to is on record. -/
theorem InStep.reaches_of_mem (h : r.InStep) (hd : r.Knows d)
    (hm : m ∈ d.chain.map (·.qualifiedName)) : r.graph.Reaches d.qualifiedName m := by
  generalize hsupers : d.supertypes = supers
  induction supers generalizing d with
  | nil =>
    rw [Descriptor.chain, hsupers, List.map_singleton, List.mem_singleton] at hm
    rw [hm]
    exact .refl
  | cons entry rest ih =>
    rw [Descriptor.chain, List.map_cons, List.mem_cons] at hm
    rcases hm with rfl | hm
    · exact .refl
    · have hp : d.parent? = some ⟨entry, rest⟩ := parent?_eq_some_iff.mpr hsupers
      obtain ⟨e, he, hsame⟩ := hd
      have hstep := h.recorded he ((parent?_congr hsame).trans hp)
      have hknown := h.held he ((parent?_congr hsame).trans hp)
      rw [hsupers] at hm
      exact .head hstep (ih hknown hm rfl)

/-- What is on record leads along the types. -/
theorem InStep.mem_of_reaches (h : r.InStep) (hnm : r.graph.Reaches n m) :
    ∀ d, d.qualifiedName = n → r.Knows d → m ∈ d.chain.map (·.qualifiedName) := by
  induction hnm using Relation.ReflTransGen.head_induction_on with
  | refl =>
    rintro d rfl -
    simp [Descriptor.chain]
  | head hstep _ ih =>
    rintro d rfl ⟨e, he, hsame⟩
    obtain ⟨e', p, he', hp, hname⟩ := h.taken hstep
    obtain rfl := Option.some.inj (he.symm.trans he')
    have hm := ih p hname (h.held he hp)
    rw [parent?_congr hsame] at hp
    rw [Descriptor.chain, parent?_eq_some_iff.mp hp, List.map_cons]
    exact List.mem_cons_of_mem _ hm

theorem InStep.bound_of_reaches (h : r.InStep) (hn : ∃ d, r.get? n = some d)
    (hnm : r.graph.Reaches n m) : ∃ e, r.get? m = some e := by
  induction hnm with
  | refl => exact hn
  | tail _ hstep _ =>
    obtain ⟨d, p, hd, hp, rfl⟩ := h.taken hstep
    obtain ⟨e, he, -⟩ := h.held hd hp
    exact ⟨e, he⟩

/-- Nothing that is bound leads to a free name. -/
theorem InStep.wouldCreateCycle_eq_false (h : r.InStep) (hfree : r.get? n = none)
    (hm : ∃ d, r.get? m = some d) : r.graph.wouldCreateCycle n m = false := by
  rw [Bool.eq_false_iff]
  intro hcycle
  have hreach := (r.graph.wouldCreateCycle_eq_true_iff n m).mp hcycle
  obtain ⟨e, he⟩ := h.bound_of_reaches hm hreach
  cases hfree.symm.trans he

/-- A definition under another name than its supertype's is refused for a circle if and only if the
search finds one. -/
theorem reportsCircle_define (hparent : definition.parent = some (.descriptor d))
    (hname : d.qualifiedName ≠ definition.qualifiedName) :
    ReportsCircle (r.define family definition binding) ↔
      r.graph.wouldCreateCycle definition.qualifiedName d.qualifiedName = true := by
  rw [define, defineWith, hparent, resolveParent_descriptor, if_neg hname]
  cases r.graph.wouldCreateCycle definition.qualifiedName d.qualifiedName with
  | true => exact iff_of_true ⟨_, _, rfl⟩ rfl
  | false =>
    refine iff_of_false ?_ Bool.false_ne_true
    rintro ⟨child, above, herror⟩
    rw [if_neg Bool.false_ne_true] at herror
    dsimp only at herror
    split at herror
    · next e hmerge =>
      obtain rfl := Except.error.inj herror
      obtain ⟨property, hproperty⟩ := mergeProperties_eq_error hmerge
      cases hproperty
    · next properties hmerge =>
      obtain ⟨⟨existing, hconflict⟩, -⟩ := bind_eq_error (Prod.ext herror rfl)
      cases hconflict

end Finding

section Keeping

/-- The later registry is in step, and names keep types of the same supertypes. -/
structure Continues (r s : Registry) : Prop where
  inStep : s.InStep
  known : ∀ ⦃n d⦄, r.get? n = some d → ∃ e, s.get? n = some e ∧ e.supertypes = d.supertypes

theorem Continues.refl (h : r.InStep) : Continues r r := ⟨h, fun _ d hd => ⟨d, hd, rfl⟩⟩

theorem Continues.trans {t : Registry} (hrs : Continues r s) (hst : Continues s t) :
    Continues r t where
  inStep := hst.inStep
  known n d hd := by
    obtain ⟨e, he, hsame⟩ := hrs.known hd
    obtain ⟨e', he', hsame'⟩ := hst.known he
    exact ⟨e', he', hsame'.trans hsame⟩

theorem Knows.mono (hd : r.Knows d)
    (h : ∀ ⦃n d⦄, r.get? n = some d → ∃ e, s.get? n = some e ∧ e.supertypes = d.supertypes) :
    s.Knows d := by
  obtain ⟨e, he, hsame⟩ := hd
  obtain ⟨e', he', hsame'⟩ := h he
  exact ⟨e', he', hsame'.trans hsame⟩

theorem inStep_empty (policy : ConflictPolicy) : (empty policy).InStep where
  named := named_empty policy
  recorded _ _ _ hd := by cases hd
  held _ _ _ hd := by cases hd
  taken _ _ hcq := by cases hcq

/-- A type comes to a free name or in place of one with the same supertypes, and its own extension
is recorded. -/
theorem InStep.store (h : r.InStep) {g : InheritanceGraph}
    (hgraph : ∀ c q, g.Extends c q ↔ r.graph.Extends c q ∨
      c = d.qualifiedName ∧ ∃ p, d.parent? = some p ∧ p.qualifiedName = q)
    (hsame : ∀ e, r.get? d.qualifiedName = some e → d.supertypes = e.supertypes)
    (hparent : ∀ p, d.parent? = some p → r.Knows p) :
    Continues r (Registry.store { r with graph := g } d) := by
  have hget : ∀ n, (Registry.store { r with graph := g } d).get? n =
      if d.qualifiedName = n then some d else r.get? n := get?_store _ d
  have hext : (Registry.store { r with graph := g } d).graph = g := by
    rw [store_eq]
  have hknown : ∀ ⦃n e⦄, r.get? n = some e →
      ∃ e', (Registry.store { r with graph := g } d).get? n = some e' ∧
        e'.supertypes = e.supertypes := by
    intro n e he
    rw [hget]
    by_cases hn : d.qualifiedName = n
    · subst hn
      exact ⟨d, if_pos rfl, hsame e he⟩
    · exact ⟨e, (if_neg hn).trans he, rfl⟩
  have hnamed : ({ r with graph := g } : Registry).Named := h.named
  refine ⟨⟨hnamed.store d, ?_, ?_, ?_⟩, hknown⟩
  · intro n e p he hp
    rw [hget] at he
    rw [hext, hgraph]
    split at he
    · next hn =>
      obtain rfl := Option.some.inj he
      exact .inr ⟨hn.symm, p, hp, rfl⟩
    · exact .inl (h.recorded he hp)
  · intro n e p he hp
    rw [hget] at he
    split at he
    · obtain rfl := Option.some.inj he
      exact (hparent p hp).mono hknown
    · exact (h.held he hp).mono hknown
  · intro c q hcq
    rw [hext, hgraph] at hcq
    rcases hcq with hold | ⟨rfl, p, hp, hq⟩
    · obtain ⟨e, p, he, hp, hq⟩ := h.taken hold
      obtain ⟨e', he', hsame'⟩ := hknown he
      exact ⟨e', p, he', (parent?_congr hsame').trans hp, hq⟩
    · exact ⟨d, p, get?_store_named rfl, hp, hq⟩

/-- A new type that extends nothing. -/
theorem InStep.store_top (h : r.InStep) (hfree : r.get? d.qualifiedName = none)
    (htop : d.parent? = none) : Continues r (r.store d) := by
  apply h.store
  · intro c q
    simp [htop]
  · intro e he
    cases hfree.symm.trans he
  · intro p hp
    cases htop.symm.trans hp

/-- A new type, with its extension recorded. -/
theorem InStep.store_under (h : r.InStep) (hfree : r.get? d.qualifiedName = none)
    (hd : d.parent? = some p) (hp : r.Knows p) :
    Continues r (Registry.store
      { r with graph := r.graph.addEdge d.qualifiedName p.qualifiedName } d) := by
  apply h.store
  · intro c q
    apply (InheritanceGraph.mem_edges_addEdge _ _ _).trans
    simp [hd, eq_comm, InheritanceGraph.Extends]
  · intro e he
    cases hfree.symm.trans he
  · intro p' hp'
    obtain rfl := Option.some.inj (hd.symm.trans hp')
    exact hp

theorem InStep.define (h : r.InStep) (hfree : r.get? definition.qualifiedName = none)
    (hnames : (definition.properties.map (·.name)).Nodup)
    (hparent : definition.parent = none ∨
      ∃ d, definition.parent = some (.descriptor d) ∧ r.Knows d) :
    Continues r (r.define family definition binding).2 := by
  have hmerge := exists_mergeProperties hnames definition.qualifiedName
  rcases hparent with hnone | ⟨d, hd, hknows⟩
  · obtain ⟨merged, hmerged⟩ := hmerge []
    rw [Registry.define, defineWith_of_free none (by rw [hnone]; rfl) hmerged hfree]
    exact h.store_top hfree rfl
  · have hbound : ∃ e, r.get? d.qualifiedName = some e := hknows.imp fun _ he => he.1
    have hname : d.qualifiedName ≠ definition.qualifiedName := by
      intro hname
      obtain ⟨e, he⟩ := hbound
      rw [hname, hfree] at he
      cases he
    have hcycle := h.wouldCreateCycle_eq_false hfree hbound
    have hresolve : resolveParent (registerWithin family (family.kinds.length + 1))
        definition.qualifiedName binding definition.parent r = (.ok (some d),
          { r with graph := r.graph.addEdge definition.qualifiedName d.qualifiedName }) := by
      rw [hd, resolveParent_descriptor, if_neg hname, if_neg (by simp [hcycle])]
    obtain ⟨merged, hmerged⟩ := hmerge d.properties
    rw [Registry.define, defineWith_of_free (some d) hresolve hmerged hfree]
    exact h.store_under hfree rfl hknows

theorem InStep.placeholder (h : r.InStep) (name : QualifiedName) (sourceType : String) :
    Continues r (r.registerPlaceholder name sourceType none).2 := by
  rw [registerPlaceholder]
  split
  · exact .refl h
  · next hfree =>
    dsimp only
    apply h.store_top
    · exact hfree
    · rfl

theorem InStep.property (h : r.InStep) (name : QualifiedName) (property : Property) :
    Continues r (r.registerProperty name property).2 := by
  rcases r.registerProperty_cases name property with hs | ⟨d, hd, hs⟩
  · rw [hs]
    exact .refl h
  · rw [hs]
    have hname := h.named hd
    apply h.store
    · intro c q
      refine (or_iff_left_of_imp ?_).symm
      rintro ⟨rfl, p, hp, rfl⟩
      rw [← hname] at hd
      exact h.recorded hd hp
    · intro e he
      rw [← hname] at hd
      obtain rfl := Option.some.inj (hd.symm.trans he)
      rfl
    · intro p hp
      exact h.held hd hp

theorem InStep.register (h : r.InStep) {k : Kind} (hf : family.Orderly) (hr : r.Hosts family)
    (hk : k ∈ family.kinds) : Continues r (r.register family k).2 := by
  obtain ⟨d, s, hregister, hs, hfills, -⟩ := register_serves hf hk hr
  have hnamed : (r.register family k).2.Named := onward_named.handle r (.register family k) h.named
  rw [hregister] at hnamed ⊢
  have hknown : ∀ ⦃n d⦄, r.get? n = some d → ∃ e, s.get? n = some e ∧
      e.supertypes = d.supertypes := fun n d hd => ⟨d, hfills.kept n d hd, rfl⟩
  refine ⟨⟨hnamed, ?_, ?_, ?_⟩, hknown⟩
  · intro n e p he hp
    rcases hfills.recorded n e p he hp with hold | hrecorded
    · exact hfills.edges _ _ (h.recorded hold hp)
    · exact hrecorded
  · intro n e p he hp
    rcases hfills.only n with hsame | ⟨i, hi, rfl⟩
    · exact (h.held (hsame.symm.trans he) hp).mono hknown
    · have hholds := hs.types i (Family.mem_of_reflTransGen hk hi) e he
      exact ⟨p, hholds.linked p hp, rfl⟩
  · intro c q hcq
    rcases hfills.taken c q hcq with hold | hnew
    · obtain ⟨e, p, he, hp, hq⟩ := h.taken hold
      exact ⟨e, p, hfills.kept c e he, hp, hq⟩
    · exact hnew

/-- Requests that bind free names only, to types whose supertypes are there and on record. -/
inductive Regular (r : Registry) : Request → Prop where
  | register {family : Family} {k : Kind} (orderly : family.Orderly) (hosts : r.Hosts family)
      (mem : k ∈ family.kinds) : Regular r (.register family k)
  | define {family : Family} {definition : Definition} {binding : Binding}
      (free : r.get? definition.qualifiedName = none)
      (names : (definition.properties.map (·.name)).Nodup)
      (parent : definition.parent = none ∨
        ∃ d, definition.parent = some (.descriptor d) ∧ r.Knows d) :
      Regular r (.define family definition binding)
  | placeholder {name : QualifiedName} {sourceType : String} :
      Regular r (.placeholder name sourceType none)
  | property {name : QualifiedName} {property : Property} : Regular r (.property name property)

/-- Each request is regular where it is made. -/
def RegularRun : Registry → List Request → Prop
  | _, [] => True
  | r, request :: requests => r.Regular request ∧ (r.handle request).2.RegularRun requests

theorem Regular.continues {request : Request} (h : r.InStep) (hrequest : r.Regular request) :
    Continues r (r.handle request).2 := by
  cases hrequest with
  | register orderly hosts mem => exact h.register orderly hosts mem
  | define free names parent => exact h.define free names parent
  | placeholder => exact h.placeholder _ _
  | property => exact h.property _ _

theorem RegularRun.continues {requests : List Request} (h : r.InStep)
    (hrun : r.RegularRun requests) : Continues r (r.after requests) := by
  induction requests generalizing r with
  | nil => exact .refl h
  | cons request requests ih =>
    obtain ⟨hrequest, hrest⟩ := hrun
    have hstep := hrequest.continues h
    exact hstep.trans (ih hstep.inStep hrest)

theorem RegularRun.append {earlier later : List Request}
    (hrun : r.RegularRun (earlier ++ later)) :
    r.RegularRun earlier ∧ (r.after earlier).RegularRun later := by
  induction earlier generalizing r with
  | nil => exact ⟨trivial, hrun⟩
  | cons request earlier ih =>
    obtain ⟨hrequest, hrest⟩ := hrun
    obtain ⟨hfirst, hlast⟩ := ih hrest
    exact ⟨⟨hrequest, hfirst⟩, hlast⟩

end Keeping

/-- A definition is refused for closing a circle if and only if the extensions on record lead from
its supertype to its name. After regular requests, and for a supertype that was taken from the
registry at any time, this means that a supertype of it has the name. -/
theorem reportsCircle_define_iff {policy : ConflictPolicy} {requests : List Request}
    (hparent : definition.parent = some (.descriptor d))
    (hname : d.qualifiedName ≠ definition.qualifiedName) :
    (ReportsCircle (((empty policy).after requests).define family definition binding) ↔
        ((empty policy).after requests).graph.Reaches d.qualifiedName definition.qualifiedName) ∧
      ∀ earlier later, requests = earlier ++ later → (empty policy).RegularRun requests →
        ((empty policy).after earlier).get? d.qualifiedName = some d →
        (ReportsCircle (((empty policy).after requests).define family definition binding) ↔
          definition.qualifiedName ∈ d.supertypes.map (·.qualifiedName)) := by
  have hreaches : ReportsCircle (((empty policy).after requests).define family definition binding) ↔
      ((empty policy).after requests).graph.Reaches d.qualifiedName definition.qualifiedName := by
    rw [reportsCircle_define hparent hname]
    exact InheritanceGraph.wouldCreateCycle_eq_true_iff _ _ _
  refine ⟨hreaches, ?_⟩
  rintro earlier later rfl hrun hd
  obtain ⟨hfirst, hlast⟩ := hrun.append
  have hearlier := hfirst.continues (inStep_empty policy)
  have hlater := hlast.continues hearlier.inStep
  rw [← after_append] at hlater
  have hknows : ((empty policy).after (earlier ++ later)).Knows d := hlater.known hd
  have hchain : definition.qualifiedName ∈ d.chain.map (·.qualifiedName) ↔
      definition.qualifiedName ∈ d.supertypes.map (·.qualifiedName) := by
    rw [Descriptor.chain, List.map_cons, List.mem_cons]
    exact or_iff_right (Ne.symm hname)
  rw [hreaches, ← hchain]
  constructor
  · intro hreach
    exact hlater.inStep.mem_of_reaches hreach d rfl hknows
  · exact hlater.inStep.reaches_of_mem hknows

section Sample

/-- A type that extends what the placeholder stands for. -/
def clauseOverPhrase : Definition :=
  ⟨clauseName, [.attr "text" "string"], some (.descriptor phrasePlaceholder)⟩

def clauseOverPhraseType : Descriptor :=
  ⟨⟨1, clauseName, [.attr "text" "string"], .dynamic "clause"⟩, phrasePlaceholder.chain⟩

def phraseOverClause : Definition := ⟨phraseName, [], some (.descriptor clauseOverPhraseType)⟩

def clauseRequests : List Request :=
  [phraseRequest, .define ⟨[]⟩ clauseOverPhrase (.dynamic "clause")]

theorem reportsCircle_define_iff_phraseOverClause :
    phraseOverClause.parent = some (.descriptor clauseOverPhraseType) ∧
      clauseOverPhraseType.qualifiedName ≠ phraseOverClause.qualifiedName ∧
      (empty .fail).RegularRun clauseRequests ∧
      ((empty .fail).after clauseRequests).get? clauseName = some clauseOverPhraseType ∧
      (ReportsCircle (((empty .fail).after clauseRequests).define ⟨[]⟩ phraseOverClause
          (.dynamic "phrase")) ↔
        phraseName ∈ clauseOverPhraseType.supertypes.map (·.qualifiedName)) := by
  have hname : clauseOverPhraseType.qualifiedName ≠ phraseOverClause.qualifiedName := by decide
  have hfree : ((empty .fail).after [phraseRequest]).get? clauseName = none := by decide
  have hknows : ((empty .fail).after [phraseRequest]).Knows phrasePlaceholder :=
    ⟨phrasePlaceholder, by decide, rfl⟩
  have hrun : (empty .fail).RegularRun clauseRequests :=
    ⟨.placeholder, .define hfree (by decide) (.inr ⟨phrasePlaceholder, rfl, hknows⟩), trivial⟩
  have hbound : ((empty .fail).after clauseRequests).get? clauseName =
      some clauseOverPhraseType := by decide
  exact ⟨rfl, hname, hrun, hbound,
    (reportsCircle_define_iff rfl hname).2 clauseRequests [] rfl hrun hbound⟩

/-- A placeholder, and a second one that extends it. -/
def placeholderRequests : List Request :=
  [phraseRequest, .placeholder clauseName "ClauseContext" (some phrasePlaceholder)]

def clausePlaceholder : Descriptor :=
  ⟨⟨1, clauseName, [], .placeholder "ClauseContext"⟩, phrasePlaceholder.chain⟩

/-- A definition that is refused for its properties, and then a type of its name that extends
nothing. -/
def refusedRequests : List Request :=
  [phraseRequest, .define ⟨[]⟩ doubledClause (.dynamic "clause"),
    .define ⟨[]⟩ ⟨clauseName, [.attr "text" "string"], none⟩ (.dynamic "clause")]

/-- Circles through the supertypes may go unseen, and there are refusals for circles that no
supertype closes. -/
theorem reportsCircle_apart_from_supertypes :
    (¬ ∀ (policy : ConflictPolicy) (requests : List Request) (family : Family)
        (definition : Definition) (binding : Binding) (d : Descriptor),
        definition.parent = some (.descriptor d) → d.qualifiedName ≠ definition.qualifiedName →
        ((empty policy).after requests).get? d.qualifiedName = some d →
        definition.qualifiedName ∈ d.supertypes.map (·.qualifiedName) →
        ReportsCircle (((empty policy).after requests).define family definition binding)) ∧
      ¬ ∀ (policy : ConflictPolicy) (requests : List Request) (family : Family)
        (definition : Definition) (binding : Binding) (d : Descriptor),
        definition.parent = some (.descriptor d) → d.qualifiedName ≠ definition.qualifiedName →
        ((empty policy).after requests).get? d.qualifiedName = some d →
        ReportsCircle (((empty policy).after requests).define family definition binding) →
        definition.qualifiedName ∈ d.supertypes.map (·.qualifiedName) := by
  constructor
  · intro h
    have hreports := h .fail placeholderRequests ⟨[]⟩
      ⟨phraseName, [], some (.descriptor clausePlaceholder)⟩ (.dynamic "phrase") clausePlaceholder
      rfl (by decide) (by decide) (by decide)
    have hcycle := (reportsCircle_define rfl (by decide)).mp hreports
    revert hcycle
    decide
  · intro h
    have hmem := h .fail refusedRequests ⟨[]⟩ ⟨phraseName, [], some (.descriptor clauseType)⟩
      (.dynamic "phrase") clauseType rfl (by decide) (by decide)
      ((reportsCircle_define rfl (by decide)).mpr (by decide))
    revert hmem
    decide

end Sample

end Registry
end Arbor
