import Arbor.Schema.Inheritance
import Mathlib.Data.List.Count
import Mathlib.Logic.Relation

/-!
What the search for cycles finds. A type would extend itself if it can be reached from the type that
it is about to extend, along the extensions on record. The search opens each name once, so the
number of extensions bounds its steps, and names that it has opened lead to nothing new.
-/
namespace Arbor
namespace InheritanceGraph
variable {g : InheritanceGraph} {child parent a b target : QualifiedName}

/-- It is on record that `child` extends `parent`. -/
def Extends (g : InheritanceGraph) (child parent : QualifiedName) : Prop :=
  (child, parent) ∈ g.edges

/-- A type of the first name extends one of the second name through any number of extensions. -/
def Reaches (g : InheritanceGraph) : QualifiedName → QualifiedName → Prop :=
  Relation.ReflTransGen g.Extends

theorem mem_parentsOf : parent ∈ g.parentsOf child ↔ g.Extends child parent := by
  simp [parentsOf, Extends]

theorem mem_edges_addEdge (g : InheritanceGraph) (child parent : QualifiedName)
    {e : QualifiedName × QualifiedName} :
    e ∈ (g.addEdge child parent).edges ↔ e ∈ g.edges ∨ e = (child, parent) := by
  rw [addEdge]
  split
  · next hmem =>
    refine ⟨.inl, ?_⟩
    rintro (he | rfl)
    · exact he
    · exact hmem
  · simp

theorem length_parentsOf (g : InheritanceGraph) (child : QualifiedName) :
    (g.parentsOf child).length = g.edges.countP (·.1 = child) := by
  rw [parentsOf, List.length_filterMap_eq_countP]
  congr 1
  funext e
  by_cases he : e.1 = child <;> simp [he]

/-- The extensions of names that are not opened yet. -/
def unopened (g : InheritanceGraph) (visited : List QualifiedName) : Nat :=
  g.edges.countP (·.1 ∉ visited)

theorem unopened_cons {visited : List QualifiedName} (h : a ∉ visited) :
    g.unopened (a :: visited) + (g.parentsOf a).length = g.unopened visited := by
  rw [length_parentsOf, unopened, unopened]
  induction g.edges with
  | nil => rfl
  | cons e rest ih =>
    simp only [List.countP_cons]
    rw [← ih, Nat.add_add_add_comm]
    congr 1
    by_cases he : e.1 = a
    · simp [he, h]
    · simp [he]

/-- Names that the recorded extensions do not lead out of. -/
def Closed (g : InheritanceGraph) (names : QualifiedName → Prop) : Prop :=
  ∀ ⦃n m⦄, names n → g.Extends n m → names m

theorem Closed.reaches {names : QualifiedName → Prop} (h : g.Closed names) (ha : names a)
    (hab : g.Reaches a b) : names b := by
  induction hab with
  | refl => exact ha
  | tail _ hstep ih => exact h ih hstep

theorem Reaches.mono {h : InheritanceGraph} (hgh : ∀ e ∈ g.edges, e ∈ h.edges)
    (hab : g.Reaches a b) : h.Reaches a b :=
  Relation.ReflTransGen.mono (fun a b hstep => hgh (a, b) hstep) a b hab

/-- What only more extensions make reachable is reached through one of them. -/
theorem reaches_or_through {h : InheritanceGraph} {extra : List (QualifiedName × QualifiedName)}
    (hedges : ∀ e, e ∈ h.edges ↔ e ∈ g.edges ∨ e ∈ extra) (hab : h.Reaches a b) :
    g.Reaches a b ∨ ∃ e ∈ extra, h.Reaches a e.1 ∧ h.Reaches e.2 b := by
  induction hab with
  | refl => exact .inl .refl
  | @tail b c hab hbc ih =>
    rcases ih with hg | ⟨e, he, hae, heb⟩
    · rcases (hedges (b, c)).mp hbc with hold | hnew
      · exact .inl (hg.tail hold)
      · exact .inr ⟨(b, c), hnew, hab, .refl⟩
    · exact .inr ⟨e, he, hae, heb.tail hbc⟩

theorem reaches_of_search {fuel : Nat} {visited pending : List QualifiedName}
    (h : g.search target fuel visited pending) : ∃ n ∈ pending, g.Reaches n target := by
  induction fuel, visited, pending using search.induct g target with
  | case1 => cases h
  | case2 => cases h
  | case3 fuel visited pending => exact ⟨target, by simp, .refl⟩
  | case4 fuel visited current pending hne hold ih =>
    rw [search, if_neg hne, if_pos hold] at h
    obtain ⟨n, hn, hreach⟩ := ih h
    exact ⟨n, List.mem_cons_of_mem _ hn, hreach⟩
  | case5 fuel visited current pending hne hnew ih =>
    rw [search, if_neg hne, if_neg hnew] at h
    obtain ⟨n, hn, hreach⟩ := ih h
    rcases List.mem_append.mp hn with hn | hn
    · have hstep := mem_parentsOf.mp (List.mem_reverse.mp hn)
      exact ⟨current, by simp, .head hstep hreach⟩
    · exact ⟨n, List.mem_cons_of_mem _ hn, hreach⟩

/-- A search that ends without a hit has seen a closed set of names. -/
theorem exists_closed_of_search {fuel : Nat} {visited pending : List QualifiedName}
    (hfuel : g.unopened visited + pending.length < fuel) (hvisited : target ∉ visited)
    (hopened : ∀ n ∈ visited, ∀ m, g.Extends n m → m ∈ visited ∨ m ∈ pending)
    (h : g.search target fuel visited pending = false) :
    ∃ names, g.Closed names ∧ (∀ n ∈ visited, names n) ∧ (∀ n ∈ pending, names n) ∧
      ¬ names target := by
  induction fuel, visited, pending using search.induct g target with
  | case1 => omega
  | case2 fuel visited =>
    refine ⟨(· ∈ visited), fun n m hn hstep => ?_, fun _ => id, by simp, hvisited⟩
    exact (hopened n hn m hstep).resolve_right (by simp)
  | case3 fuel visited pending => simp [search] at h
  | case4 fuel visited current pending hne hold ih =>
    rw [search, if_neg hne, if_pos hold] at h
    rw [List.length_cons] at hfuel
    obtain ⟨names, hclosed, hv, hp, ht⟩ := ih (by omega) hvisited (fun n hn m hstep => by
      rcases hopened n hn m hstep with hm | hm
      · exact .inl hm
      · rcases List.mem_cons.mp hm with rfl | hm
        · exact .inl hold
        · exact .inr hm) h
    exact ⟨names, hclosed, hv, by simpa [hv current hold] using hp, ht⟩
  | case5 fuel visited current pending hne hnew ih =>
    rw [search, if_neg hne, if_neg hnew] at h
    have hcount := unopened_cons (g := g) hnew
    obtain ⟨names, hclosed, hv, hp, ht⟩ := ih (by simp at hfuel ⊢; omega)
      (by simp [hvisited, Ne.symm hne]) (fun n hn m hstep => by
        rcases List.mem_cons.mp hn with rfl | hn
        · exact .inr (by simp [mem_parentsOf, hstep])
        · rcases hopened n hn m hstep with hm | hm
          · exact .inl (List.mem_cons_of_mem _ hm)
          · rcases List.mem_cons.mp hm with rfl | hm
            · exact .inl (by simp)
            · exact .inr (List.mem_append_right _ hm)) h
    refine ⟨names, hclosed, fun n hn => hv n (List.mem_cons_of_mem _ hn), ?_, ht⟩
    intro n hn
    rcases List.mem_cons.mp hn with rfl | hn
    · exact hv n (by simp)
    · exact hp n (List.mem_append_right _ hn)

theorem wouldCreateCycle_eq_true_iff (g : InheritanceGraph) (child parent : QualifiedName) :
    g.wouldCreateCycle child parent = true ↔ g.Reaches parent child := by
  rw [wouldCreateCycle, Bool.or_eq_true, decide_eq_true_iff]
  constructor
  · rintro (rfl | h)
    · exact .refl
    · obtain ⟨n, hn, hreach⟩ := reaches_of_search h
      rwa [List.mem_singleton.mp hn] at hreach
  · intro hreach
    by_contra hnot
    obtain ⟨-, hsearch⟩ := not_or.mp hnot
    rw [Bool.not_eq_true] at hsearch
    have hfuel : g.unopened [] + [parent].length < g.edges.length + 2 := by
      have hle : g.unopened [] ≤ g.edges.length := List.countP_le_length
      rw [List.length_singleton]
      omega
    obtain ⟨names, hclosed, -, hparent, hchild⟩ :=
      exists_closed_of_search hfuel (by simp) (by simp) hsearch
    exact hchild (hclosed.reaches (hparent parent (by simp)) hreach)

end InheritanceGraph

end Arbor
