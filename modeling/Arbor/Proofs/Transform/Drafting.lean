import Arbor.Proofs.Forest.Renumbering
import Arbor.Proofs.Schema.Builtin
import Arbor.Proofs.Transform.Outcome

/-!
The trees that a transformer is to make, by plain recursion over the source. A source goes to its
factory, the constructor gives nodes without children, and for each property that has a wiring the
recursion goes on with what the wiring reads. Nothing is kept on the way but the node types that are
registered and the number of cells that are taken, by which new nodes may name each other: no nodes,
no links and no notes. The recursion stops where a wiring cannot read, and where a property gets
nodes that it cannot hold. On a finite source it comes to an end.
-/
namespace Arbor

/-- What the recursion may meet. -/
inductive Obstacle where
  /-- A wiring of the property cannot read the source. -/
  | unread (property : String) (cause : Failure)
  /-- More than one node for a property for one child. -/
  | crowded (property : String)
  /-- Nodes for an attribute or a reference. -/
  | misplaced (property : String)
  /-- The source is nested deeper than the recursion goes. -/
  | tooDeep
deriving DecidableEq

/-- Why a property cannot hold this many nodes, if so. -/
def Property.refuses (p : Property) (count : Nat) : Option Obstacle :=
  if count = 0 then none
  else if !p.isChild then some (.misplaced p.name)
  else if !p.multiple && 1 < count then some (.crowded p.name)
  else none

/-- What is counted of a world: the types that are registered and the cells that are taken. -/
structure Ledger where
  registry : Registry := {}
  cells : Nat := 0

def World.ledger (w : World) : Ledger := ⟨w.registry, w.forest.size⟩

/-- A recursion that may stop; types are registered and cells are taken on the way. -/
abbrev Drafting := ExceptT Obstacle (StateM Ledger)

namespace Drafting
variable {α β : Type} {l l' : Ledger}

def answer (x : Drafting α) (l : Ledger) : Except Obstacle α × Ledger := x.run.run l

/-- Does something with the ledger. -/
def withLedger (step : Ledger → α × Ledger) : Drafting α := ExceptT.lift step

@[simp] theorem answer_pure (a : α) : (pure a : Drafting α).answer l = (.ok a, l) := rfl

@[simp] theorem answer_throw (o : Obstacle) : (throw o : Drafting α).answer l = (.error o, l) := rfl

@[simp] theorem answer_withLedger (step : Ledger → α × Ledger) :
    (withLedger step).answer l = (.ok (step l).1, (step l).2) := rfl

theorem answer_bind_ok {x : Drafting α} {a : α} (h : x.answer l = (.ok a, l'))
    (g : α → Drafting β) : (x >>= g).answer l = (g a).answer l' := by
  unfold answer at h ⊢
  simp only [ExceptT.run_bind, StateT.run_bind, h]
  rfl

theorem answer_bind_error {x : Drafting α} {o : Obstacle} (h : x.answer l = (.error o, l'))
    (g : α → Drafting β) : (x >>= g).answer l = (.error o, l') := by
  unfold answer at h ⊢
  simp only [ExceptT.run_bind, StateT.run_bind, h]
  rfl

end Drafting

/-- Nodes for a property, if it can hold them. -/
def Property.receive (p : Property) (ds : List Draft) : Drafting (List Draft) :=
  match p.refuses ds.length with
  | some o => throw o
  | none => return ds

/-- What the constructor of a factory makes from a source, each node with its cell. It works as if
only the nodes of `old` were there, and then the cells behind these are numbered as the next ones
that are free. -/
def Factory.craft (f : Factory) (old : Forest) (s : Source) (l : Ledger) :
    Except Failure (List (NodeId × Node)) × Ledger :=
  let (made, w) := (f.construct (fun _ _ => throw .tooDeep) s).outcome
    { world := ⟨l.registry, old⟩ }
  let number := old.numberFrom l.cells
  (made.map fun ids => ids.filterMap fun id =>
    (w.world.forest.node? id).map fun n => (number id, n.renumber number),
    ⟨w.world.registry, number w.world.forest.size⟩)

/-- A source that is there from the start. -/
def Source.Settled (s : Source) (old : Forest) : Prop := ∀ id ∈ s.node?, id < old.size

/-- The node for a source that nothing maps. -/
def Source.placeholder (s : Source) (old : Forest) (r : Registry) : Node × Registry :=
  let (base, r) := r.builtin .genericNode
  let (d, r) := r.registerPlaceholder ⟨World.placeholderPackage, old.sourceType s⟩
    (old.sourceType s) (some base)
  ({ Node.blank d with origin := some (.source s) }, r)

/-- The node for a source whose constructor fails. -/
def Source.errorNode (s : Source) (old : Forest) (cause : Failure) (r : Registry) :
    Node × Registry :=
  let (d, r) := r.builtin .errorNode
  ({ Node.starting d (Transformer.errorData (old.sourceType s) cause) with
      origin := some (.source s) }, r)

/-- One node without children that takes the next cell. -/
def Draft.alone (step : Registry → Node × Registry) (l : Ledger) : Draft × Ledger :=
  let (n, r) := step l.registry
  (.node l.cells n [], ⟨r, l.cells + 1⟩)

/-- The node with the source as its origin, if it has none of its own. -/
def Node.from (n : Node) (s : Source) : Node :=
  { n with origin := n.origin.or (some (.source s)) }

theorem Node.Bare.from {n : Node} (hn : n.Bare) (s : Source) : (n.from s).Bare :=
  ⟨hn.typed, hn.contents, hn.parent, hn.names, hn.plain⟩

namespace Transformer

/-- How drafts are made from one source. -/
abbrev Drafter := Source → Drafting (List Draft)

/-- The factory that is to serve a source. -/
def serving (t : Transformer) (old : Forest) (s : Source) : Option Factory :=
  (t.firstServed (old.sourceChain s)).bind t.factories.get?

def draftAll (draft : Drafter) : List Source → Drafting (List Draft)
  | [] => return []
  | s :: rest => do
      let ds ← draft s
      return ds ++ (← draftAll draft rest)

theorem draftAll_singleton (draft : Drafter) (s : Source) : draftAll draft [s] = draft s := by
  simp [draftAll]

section Recursion
variable (old : Forest) (draft : Drafter) (f : Factory)

/-- What goes into one property of a node made from `s`. -/
def draftProperty (nodeType : QualifiedName) (s : Source) (p : Property) : Drafting (List Draft) :=
  match wiringOf f nodeType p.name with
  | none => return []
  | some v =>
      match v.get old s with
      | .error cause => throw (.unread p.name cause)
      | .ok raw => do p.receive (← draftAll draft raw.toList)

def draftProperties (nodeType : QualifiedName) (s : Source) :
    List Property → Drafting (List (List Draft))
  | [] => return []
  | p :: rest => do
      let ds ← draftProperty old draft f nodeType s p
      return ds :: (← draftProperties nodeType s rest)

/-- The drafts of the nodes that a constructor made from `s`. -/
def draftNodes (s : Source) : List (NodeId × Node) → Drafting (List Draft)
  | [] => return []
  | (id, n) :: rest => do
      let parts ← draftProperties old draft f n.qualifiedName s n.descriptor.properties
      return .node id (n.from s) parts :: (← draftNodes s rest)

end Recursion

/-- The drafts for one source, through at most `depth` levels of sources. -/
def draftWithin (t : Transformer) (old : Forest) : Nat → Drafter
  | 0, _ => throw .tooDeep
  | depth + 1, s =>
      match t.serving old s with
      | none => do return [← .withLedger (Draft.alone (s.placeholder old))]
      | some f => do
          match ← .withLedger (f.craft old s) with
          | .ok made => draftNodes old (t.draftWithin old depth) f s made
          | .error cause => return [← .withLedger (Draft.alone (s.errorNode old cause))]

/-- All that the wirings of the factory of a source read from it. -/
def reads (t : Transformer) (old : Forest) (s : Source) : List Source :=
  (t.serving old s).toList.flatMap fun f => f.wirings.values.flatMap fun v =>
    match v.get old s with
    | .ok raw => raw.toList
    | .error _ => []

/-- A finite source: from it, wirings read finite ones only. The supertypes of every source are
those that `above` tells for its type. -/
inductive FiniteSource (t : Transformer) (old : Forest) (above : String → List String) :
    Source → Prop
  | intro {s : Source} (hsettled : s.Settled old)
      (habove : old.sourceSupertypes s = above (old.sourceType s))
      (hreads : ∀ c ∈ t.reads old s, FiniteSource t old above c) : FiniteSource t old above s

section Termination
variable {α β : Type} {t : Transformer} {old : Forest} {f : Factory} {n m : Nat}

/-- From depth `n` on a recursion is the same, and it never is too deep. -/
structure Bounded (n : Nat) (x : Nat → Drafting α) : Prop where
  same {depth : Nat} : n ≤ depth → x depth = x n
  ends (l l' : Ledger) : (x n).answer l ≠ (.error .tooDeep, l')

theorem Bounded.mono {x : Nat → Drafting α} (h : Bounded n x) (hm : n ≤ m) : Bounded m x where
  same hdepth := (h.same (Nat.le_trans hm hdepth)).trans (h.same hm).symm
  ends := by
    rw [h.same hm]
    exact h.ends

theorem bounded_succ {x : Nat → Drafting α} (h : Bounded n fun depth => x (depth + 1)) :
    Bounded (n + 1) x where
  same {depth} hdepth := by
    obtain ⟨k, rfl⟩ : ∃ k, depth = k + 1 := ⟨depth - 1, by omega⟩
    exact h.same (by omega)
  ends := h.ends

theorem bounded_pure (a : α) : Bounded n fun _ => (pure a : Drafting α) :=
  ⟨fun _ => rfl, fun l l' h => by simp at h⟩

theorem bounded_throw {o : Obstacle} (ho : o ≠ .tooDeep) :
    Bounded n fun _ => (throw o : Drafting α) :=
  ⟨fun _ => rfl, fun l l' h => ho (by simpa using congrArg Prod.fst h)⟩

theorem bounded_withLedger (step : Ledger → α × Ledger) :
    Bounded n fun _ => Drafting.withLedger step :=
  ⟨fun _ => rfl, fun l l' h => by simp at h⟩

theorem bounded_bind {x : Nat → Drafting α} {g : Nat → α → Drafting β} (hx : Bounded n x)
    (hg : ∀ a, Bounded n fun depth => g depth a) : Bounded n fun depth => x depth >>= g depth where
  same hdepth := by
    rw [hx.same hdepth, show g _ = g n from funext fun a => (hg a).same hdepth]
  ends l l' h := by
    cases hfirst : (x n).answer l with
    | mk answer l₁ =>
      cases answer with
      | ok a =>
        rw [Drafting.answer_bind_ok hfirst] at h
        exact (hg a).ends l₁ l' h
      | error o =>
        rw [Drafting.answer_bind_error hfirst] at h
        obtain rfl : o = .tooDeep := by simpa using congrArg Prod.fst h
        exact hx.ends l l₁ hfirst

theorem bounded_draftAll {draft : Nat → Drafter} {ss : List Source}
    (h : ∀ c ∈ ss, Bounded n fun depth => draft depth c) :
    Bounded n fun depth => draftAll (draft depth) ss := by
  induction ss with
  | nil => exact bounded_pure []
  | cons s rest ih =>
    refine bounded_bind (h s (by simp)) fun ds => ?_
    exact bounded_bind (ih fun c hc => h c (by simp [hc])) fun _ => bounded_pure _

theorem mem_reads {s c : Source} (hf : t.serving old s = some f) {nodeType : QualifiedName}
    {property : String} {v : Wiring} (hv : wiringOf f nodeType property = some v)
    {raw : Portion Source} (hraw : v.get old s = .ok raw) (hc : c ∈ raw.toList) :
    c ∈ t.reads old s := by
  obtain ⟨key, -, hkey⟩ := Option.bind_eq_some_iff.mp hv
  rw [reads, hf, Option.toList_some, List.flatMap_singleton, List.mem_flatMap]
  refine ⟨v, Table.mem_values_of_get? hkey, ?_⟩
  rw [hraw]
  exact hc

theorem ne_tooDeep_of_refuses {p : Property} {count : Nat} {o : Obstacle}
    (h : p.refuses count = some o) : o ≠ .tooDeep := by
  unfold Property.refuses at h
  split_ifs at h
  all_goals
    obtain rfl := Option.some.inj h
    exact Obstacle.noConfusion

theorem bounded_receive (p : Property) (ds : List Draft) : Bounded n fun _ => p.receive ds := by
  unfold Property.receive
  cases ho : p.refuses ds.length with
  | none => exact bounded_pure ds
  | some o => exact bounded_throw (ne_tooDeep_of_refuses ho)

theorem bounded_draftProperty {draft : Nat → Drafter} {s : Source}
    (hf : t.serving old s = some f) (h : ∀ c ∈ t.reads old s, Bounded n fun depth => draft depth c)
    (nodeType : QualifiedName) (p : Property) :
    Bounded n fun depth => draftProperty old (draft depth) f nodeType s p := by
  unfold draftProperty
  cases hv : wiringOf f nodeType p.name with
  | none => exact bounded_pure []
  | some v =>
    cases hraw : v.get old s with
    | error cause =>
      simp only [hraw]
      exact bounded_throw Obstacle.noConfusion
    | ok raw =>
      simp only [hraw]
      exact bounded_bind (bounded_draftAll fun c hc => h c (mem_reads hf hv hraw hc)) fun ds =>
        bounded_receive p ds

theorem bounded_draftProperties {draft : Nat → Drafter} {s : Source}
    (hf : t.serving old s = some f) (h : ∀ c ∈ t.reads old s, Bounded n fun depth => draft depth c)
    (nodeType : QualifiedName) (ps : List Property) :
    Bounded n fun depth => draftProperties old (draft depth) f nodeType s ps := by
  induction ps with
  | nil => exact bounded_pure []
  | cons p rest ih =>
    refine bounded_bind (bounded_draftProperty hf h nodeType p) fun ds => ?_
    exact bounded_bind ih fun _ => bounded_pure _

theorem bounded_draftNodes {draft : Nat → Drafter} {s : Source} (hf : t.serving old s = some f)
    (h : ∀ c ∈ t.reads old s, Bounded n fun depth => draft depth c) (made : List (NodeId × Node)) :
    Bounded n fun depth => draftNodes old (draft depth) f s made := by
  induction made with
  | nil => exact bounded_pure []
  | cons first rest ih =>
    refine bounded_bind (bounded_draftProperties hf h _ _) fun parts => ?_
    exact bounded_bind ih fun _ => bounded_pure _

/-- One level more than what the wirings read. -/
theorem bounded_draftWithin_succ {s : Source}
    (h : ∀ c ∈ t.reads old s, Bounded n fun depth => t.draftWithin old depth c) :
    Bounded (n + 1) fun depth => t.draftWithin old depth s := by
  refine bounded_succ ?_
  show Bounded n fun depth => t.draftWithin old (depth + 1) s
  unfold draftWithin
  cases hf : t.serving old s with
  | none => exact bounded_bind (bounded_withLedger _) fun _ => bounded_pure _
  | some f =>
    refine bounded_bind (bounded_withLedger _) fun answer => ?_
    cases answer with
    | ok made => exact bounded_draftNodes hf h made
    | error cause => exact bounded_bind (bounded_withLedger _) fun _ => bounded_pure _

/-- One bound for finitely many recursions. -/
theorem exists_bounded {x : Source → Nat → Drafting α} {ss : List Source}
    (h : ∀ c ∈ ss, ∃ n, Bounded n (x c)) : ∃ n, ∀ c ∈ ss, Bounded n (x c) := by
  induction ss with
  | nil => exact ⟨0, by simp⟩
  | cons s rest ih =>
    obtain ⟨n, hn⟩ := h s (by simp)
    obtain ⟨m, hm⟩ := ih fun c hc => h c (by simp [hc])
    refine ⟨max n m, fun c hc => ?_⟩
    rcases List.mem_cons.mp hc with rfl | hc
    · exact hn.mono (Nat.le_max_left n m)
    · exact (hm c hc).mono (Nat.le_max_right n m)

/-- On a finite source the recursion comes to an end. -/
theorem FiniteSource.exists_bounded {above : String → List String} {s : Source}
    (h : t.FiniteSource old above s) : ∃ n, Bounded n fun depth => t.draftWithin old depth s := by
  induction h with
  | intro _ _ _ ih =>
    obtain ⟨n, hn⟩ := Transformer.exists_bounded ih
    exact ⟨n + 1, bounded_draftWithin_succ hn⟩

end Termination

end Transformer

end Arbor
