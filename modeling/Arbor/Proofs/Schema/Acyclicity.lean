import Arbor.Proofs.Schema.Reachability
import Arbor.Proofs.Schema.Upkeep

/-!
The search for circles is exact, and so no circle is ever recorded. Whatever extensions are on
record, in circles or not, the search comes to its end by itself and says whether one name can be
reached from the other. A registry asks it before it records an extension, and the new extension is
the only one that a first circle could go through.
-/
namespace Arbor
open Relation

namespace InheritanceGraph
variable {g : InheritanceGraph} {child parent target a b c : QualifiedName}

/-- The search without a bound on its steps, from the names that it has opened and those that are
pending to its answer. -/
inductive Searches (g : InheritanceGraph) (target : QualifiedName) :
    List QualifiedName → List QualifiedName → Bool → Prop
  | nothing (visited : List QualifiedName) : Searches g target visited [] false
  | hit (visited pending : List QualifiedName) : Searches g target visited (target :: pending) true
  | skip {visited pending : List QualifiedName} {current : QualifiedName} {answer : Bool}
      (other : current ≠ target) (old : current ∈ visited)
      (rest : Searches g target visited pending answer) :
      Searches g target visited (current :: pending) answer
  | visit {visited pending : List QualifiedName} {current : QualifiedName} {answer : Bool}
      (other : current ≠ target) (new : current ∉ visited)
      (rest : Searches g target (current :: visited) ((g.parentsOf current).reverse ++ pending)
        answer) :
      Searches g target visited (current :: pending) answer

/-- Each step takes a name off the list, and one that is opened gives way to extensions that were
never followed, so what is not opened and what is pending bound the steps together. -/
theorem searches_search {fuel : Nat} {visited pending : List QualifiedName}
    (hfuel : g.unopened visited + pending.length < fuel) :
    g.Searches target visited pending (g.search target fuel visited pending) := by
  induction fuel, visited, pending using search.induct g target with
  | case1 => omega
  | case2 fuel visited => exact .nothing visited
  | case3 fuel visited pending =>
    rw [search, if_pos rfl]
    exact .hit visited pending
  | case4 fuel visited current pending hne hold ih =>
    rw [List.length_cons] at hfuel
    rw [search, if_neg hne, if_pos hold]
    exact .skip hne hold (ih (by omega))
  | case5 fuel visited current pending hne hnew ih =>
    have hcount := unopened_cons (g := g) hnew
    rw [List.length_cons] at hfuel
    rw [search, if_neg hne, if_neg hnew]
    refine .visit hne hnew (ih ?_)
    rw [List.length_append, List.length_reverse]
    omega

theorem searches_wouldCreateCycle (g : InheritanceGraph) (hne : child ≠ parent) :
    g.Searches child [] [parent] (g.wouldCreateCycle child parent) := by
  rw [wouldCreateCycle, decide_eq_false hne, Bool.false_or]
  apply searches_search
  have hle : g.unopened [] ≤ g.edges.length := List.countP_le_length
  rw [List.length_singleton]
  omega

theorem extends_addEdge :
    (g.addEdge child parent).Extends a b ↔ g.Extends a b ∨ a = child ∧ b = parent := by
  unfold Extends
  rw [mem_edges_addEdge, Prod.mk.injEq]

/-- The graph that is left when extensions are recorded one after the other. -/
def recorded (extensions : List (QualifiedName × QualifiedName)) : InheritanceGraph :=
  extensions.foldl (fun g e => g.addEdge e.1 e.2) {}

theorem extends_foldl_addEdge {extensions : List (QualifiedName × QualifiedName)} :
    (extensions.foldl (fun g e => g.addEdge e.1 e.2) g).Extends a b ↔
      g.Extends a b ∨ (a, b) ∈ extensions := by
  induction extensions generalizing g with
  | nil => simp
  | cons e rest ih =>
    rw [List.foldl_cons, ih, extends_addEdge, List.mem_cons, Prod.ext_iff, or_assoc]

theorem extends_recorded {extensions : List (QualifiedName × QualifiedName)} :
    (recorded extensions).Extends a b ↔ (a, b) ∈ extensions := by
  rw [recorded, extends_foldl_addEdge]
  exact or_iff_right List.not_mem_nil

/-- No type extends itself along what is on record. -/
def Acyclic (g : InheritanceGraph) : Prop := ∀ n, ¬ TransGen g.Extends n n

/-- From the supertype on, nothing new can be reached: the new extension only leads back to it. -/
theorem reaches_of_addEdge (h : (g.addEdge child parent).Reaches parent b) :
    g.Reaches parent b := by
  have hclosed : (g.addEdge child parent).Closed (g.Reaches parent) := by
    intro n m hn hstep
    rcases extends_addEdge.mp hstep with hold | ⟨-, rfl⟩
    · exact hn.tail hold
    · exact .refl
  exact hclosed.reaches .refl h

/-- An extension that the search finds no circle for closes none. -/
theorem Acyclic.addEdge (h : g.Acyclic) (hsearch : g.wouldCreateCycle child parent = false) :
    (g.addEdge child parent).Acyclic := by
  have hapart : ¬ (g.addEdge child parent).Reaches parent child := by
    refine mt reaches_of_addEdge ?_
    rw [← wouldCreateCycle_eq_true_iff, hsearch]
    exact Bool.false_ne_true
  have hedges : ∀ e, e ∈ (g.addEdge child parent).edges ↔ e ∈ g.edges ∨ e ∈ [(child, parent)] :=
    fun e => by rw [mem_edges_addEdge, List.mem_singleton]
  intro n hcircle
  obtain ⟨m, hstep, hback⟩ := TransGen.head'_iff.mp hcircle
  -- the new extension is on the circle, as its first step or later on, if there was none before
  rcases extends_addEdge.mp hstep with hold | ⟨rfl, rfl⟩
  · rcases reaches_or_through hedges hback with hbefore | ⟨e, he, hfirst, hlast⟩
    · exact h n (TransGen.head' hold hbefore)
    · obtain rfl := List.mem_singleton.mp he
      exact hapart (hlast.trans (hfirst.head hstep))
  · exact hapart hback

end InheritanceGraph

namespace Registry
variable {r s : Registry} {name : QualifiedName} {binding : Binding}

@[simp] theorem graph_store (r : Registry) (d : Descriptor) : (r.store d).graph = r.graph := by
  rw [store_eq]

theorem graph_of_binds (h : r.Binds name binding s) : s.graph = r.graph := by
  cases h with
  | known d held same => rfl
  | fresh d yields named bound => exact graph_store r d
  | refused d held other final answer => rfl
  | kept d held other final answer => rfl
  | replaced d e held other final answer named bound => exact graph_store _ e

theorem upkeep_acyclic : Upkeep (·.graph.Acyclic) fun _ => True where
  found _ _ := trivial
  foundKind _ _ := trivial
  addEdge hr hsearch := hr.addEdge hsearch
  bind {r name _ properties parent binding} hr _ _ := by
    refine ⟨?_, fun _ _ => trivial⟩
    rw [graph_of_binds (r.binds_bind name properties parent binding)]
    exact hr
  placeholder {r name sourceType parent} hr _ := by
    refine ⟨?_, trivial⟩
    rcases r.registerPlaceholder_cases name sourceType parent with hs | ⟨d, -, -, -, hs⟩
    · rwa [hs]
    · rwa [hs, graph_store]
  property {r name property} hr := by
    refine ⟨?_, fun _ _ => trivial⟩
    rcases r.registerProperty_cases name property with hs | ⟨d, -, hs⟩
    · rwa [hs]
    · rwa [hs, graph_store]

/-- Whatever is asked of a registry, the extensions on its record close no circle. -/
theorem acyclic_after (policy : ConflictPolicy) (requests : List Request) :
    ((empty policy).after requests).graph.Acyclic := by
  have hempty : (empty policy).graph.Acyclic := by
    intro n hcircle
    obtain ⟨m, hstep, -⟩ := TransGen.head'_iff.mp hcircle
    exact List.not_mem_nil hstep
  exact (upkeep_acyclic.after hempty fun _ _ _ _ => trivial).1

end Registry

/-- Whatever extensions were recorded, the search comes to its end, and it finds a circle if and
only if the names are one or those extensions lead from the supertype to the type. So the extensions
that a registry records never close a circle. -/
theorem InheritanceGraph.wouldCreateCycle_exact (extensions : List (QualifiedName × QualifiedName))
    (child parent : QualifiedName) :
    (child = parent ∨ (recorded extensions).Searches child [] [parent]
        ((recorded extensions).wouldCreateCycle child parent)) ∧
      ((recorded extensions).wouldCreateCycle child parent = true ↔
        child = parent ∨ TransGen (fun a b => (a, b) ∈ extensions) parent child) ∧
      ∀ (policy : ConflictPolicy) (requests : List Request),
        ((Registry.empty policy).after requests).graph.Acyclic := by
  have hrecord : (recorded extensions).Extends = fun a b => (a, b) ∈ extensions := by
    funext a b
    exact propext extends_recorded
  refine ⟨?_, ?_, Registry.acyclic_after⟩
  · exact (em (child = parent)).imp id fun hne => searches_wouldCreateCycle _ hne
  · rw [wouldCreateCycle_eq_true_iff, Reaches, hrecord]
    exact reflTransGen_iff_eq_or_transGen

end Arbor
