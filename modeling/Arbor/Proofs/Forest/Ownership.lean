import Arbor.Proofs.Forest.Attachment

/-!
Dropping nodes by counting their owners. A count stands for all links by which roots and nodes keep
a node, and each node that is dropped takes its links back. A node that is about to be dropped has
no owner left, so what a surviving node keeps survives with it, and containment stays whole.
-/
namespace Arbor

namespace Forest
variable {f g : Forest} {roots pending : List NodeId} {id c p o : NodeId} {n : Node}

/-- What the node in a cell keeps. -/
def cellOwned (cell : Option Node) : List NodeId := (cell.map Node.owned).getD []

/-- All links by which nodes keep nodes. -/
def owned (f : Forest) : List NodeId := f.cells.toList.flatMap cellOwned

/-- How many links of roots and nodes keep `o`. -/
def owners (f : Forest) (roots : List NodeId) (o : NodeId) : Nat := (roots ++ f.owned).count o

theorem getElem?_foldl_addOwner (ids : List NodeId) (counts : Array Nat) (o : NodeId) :
    (ids.foldl addOwner counts)[o]? = counts[o]?.map (· + ids.count o) := by
  induction ids generalizing counts with
  | nil => simp
  | cons id rest ih =>
    rw [List.foldl_cons, ih, addOwner, Array.getElem?_modify, List.count_cons]
    by_cases h : id = o
    · cases counts[o]? <;> simp [h]
      omega
    · simp [h]

theorem getElem?_foldl_removeOwner (ids : List NodeId) (counts : Array Nat) (o : NodeId) :
    (ids.foldl removeOwner counts)[o]? = counts[o]?.map (· - ids.count o) := by
  induction ids generalizing counts with
  | nil => simp
  | cons id rest ih =>
    rw [List.foldl_cons, ih, removeOwner, Array.getElem?_modify, List.count_cons]
    by_cases h : id = o
    · cases counts[o]? <;> simp [h]
      omega
    · simp [h]

/-- Every entry is the number of owners. -/
def Counts (f : Forest) (roots : List NodeId) (counts : Array Nat) : Prop :=
  ∀ o k, counts[o]? = some k → k = f.owners roots o

theorem counts_ownerCounts (f : Forest) (roots : List NodeId) :
    f.Counts roots (f.ownerCounts roots) := by
  intro o k h
  have hfold : f.ownerCounts roots =
      (roots ++ f.owned).foldl addOwner (Array.replicate f.size 0) := by
    unfold ownerCounts owned
    rw [List.foldl_append, List.foldl_flatMap, ← Array.foldl_toList]
    rfl
  rw [hfold, getElem?_foldl_addOwner] at h
  obtain ⟨z, hz, rfl⟩ := Option.map_eq_some_iff.mp h
  have : z = 0 := by
    rw [Array.getElem?_replicate] at hz
    split at hz
    · exact (Option.some.inj hz).symm
    · cases hz
  simp [this, owners]

theorem owned_erase (hn : f.node? id = some n) (o : NodeId) :
    (f.erase id).owned.count o + n.owned.count o = f.owned.count o := by
  have hlt : id < f.cells.toList.length := lt_size_of_node? hn
  have hcell : f.cells.toList[id] = some n := by
    have : f.cells[id]? = some f.cells[id] := Array.getElem?_eq_getElem hlt
    simpa [node?, this] using hn
  have := Node.count_flatMap_set cellOwned f.cells.toList id none o hlt
  rw [hcell] at this
  simpa [owned, erase, cellOwned] using this

/-- A dropped node takes its links back. -/
theorem owners_erase (hn : f.node? id = some n) (roots : List NodeId) (o : NodeId) :
    (f.erase id).owners roots o = f.owners roots o - n.owned.count o := by
  have := owned_erase hn o
  simp only [owners, List.count_append]
  omega

theorem mem_owned (hn : f.node? p = some n) (hc : c ∈ n.owned) : c ∈ f.owned := by
  have hlt : p < f.cells.toList.length := lt_size_of_node? hn
  refine List.mem_flatMap.mpr ⟨f.cells.toList[p], List.getElem_mem hlt, ?_⟩
  have : f.cells[p]? = some f.cells[p] := Array.getElem?_eq_getElem hlt
  have : f.cells.toList[p] = some n := by simpa [node?, this] using hn
  simpa [this, cellOwned] using hc

theorem owners_ne_zero (hn : f.node? p = some n) (hc : c ∈ n.owned) : f.owners roots c ≠ 0 := by
  have := List.count_pos_iff.mpr (mem_owned hn hc)
  simp only [owners, List.count_append]
  omega

/-- `g` is `f` without some nodes, among them none that a root or a surviving node keeps. -/
structure Survives (f g : Forest) (roots : List NodeId) : Prop where
  size_eq : g.size = f.size
  node?_eq : ∀ {id n}, g.node? id = some n → f.node? id = some n
  roots_kept : ∀ {c}, c ∈ roots → f.contains c → g.contains c
  owned_kept : ∀ {p n c}, g.node? p = some n → c ∈ n.owned → f.contains c → g.contains c

theorem Survives.refl (f : Forest) (roots : List NodeId) : f.Survives f roots :=
  ⟨rfl, id, fun _ h => h, fun _ _ h => h⟩

/-- One step: a node without owners is erased. -/
theorem survives_erase (h0 : f.owners roots id = 0) : f.Survives (f.erase id) roots where
  size_eq := size_erase f id
  node?_eq {j n} h := by
    rw [node?_erase] at h
    split at h
    · cases h
    · exact h
  roots_kept {c} hc hl := by
    have hne : c ≠ id := by
      rintro rfl
      have := List.count_pos_iff.mpr hc
      simp only [owners, List.count_append] at h0
      omega
    simpa [contains, node?_erase, hne] using hl
  owned_kept {p n c} hp hc hl := by
    rw [node?_erase] at hp
    split at hp
    · cases hp
    · have hne : c ≠ id := by
        rintro rfl
        exact owners_ne_zero hp hc h0
      simpa [contains, node?_erase, hne] using hl

theorem Survives.trans {k : Forest} (h₁ : f.Survives g roots) (h₂ : g.Survives k roots) :
    f.Survives k roots where
  size_eq := h₂.size_eq.trans h₁.size_eq
  node?_eq h := h₁.node?_eq (h₂.node?_eq h)
  roots_kept hc hl := h₂.roots_kept hc (h₁.roots_kept hc hl)
  owned_kept hp hc hl := h₂.owned_kept hp hc (h₁.owned_kept (h₂.node?_eq hp) hc hl)

theorem Counts.erase {counts : Array Nat} (h : f.Counts roots counts)
    (hn : f.node? id = some n) : (f.erase id).Counts roots (n.owned.foldl removeOwner counts) := by
  intro o k hk
  rw [getElem?_foldl_removeOwner] at hk
  obtain ⟨z, hz, rfl⟩ := Option.map_eq_some_iff.mp hk
  rw [owners_erase hn, h _ _ hz]

/-- Pending nodes have no owners, and counts are the numbers of owners; both stay so. -/
theorem survives_release (fuel : Nat) {counts : Array Nat} (hc : f.Counts roots counts)
    (hp : ∀ o ∈ pending, f.owners roots o = 0) :
    f.Survives (release fuel f counts pending) roots := by
  induction fuel generalizing f counts pending with
  | zero => exact .refl f roots
  | succ fuel ih =>
    cases pending with
    | nil => exact .refl f roots
    | cons id rest =>
      unfold release
      cases hn : f.node? id with
      | none => exact ih hc fun o ho => hp o (List.mem_cons_of_mem _ ho)
      | some n =>
        refine (survives_erase (hp id List.mem_cons_self)).trans (ih (hc.erase hn) fun o ho => ?_)
        rcases List.mem_append.mp ho with ho | ho
        · have hz : (n.owned.foldl removeOwner counts)[o]? = some 0 := by
            simpa using (List.mem_filter.mp ho).2
          exact (hc.erase hn _ _ hz).symm
        · rw [owners_erase hn, hp o (List.mem_cons_of_mem _ ho), Nat.zero_sub]

/-- What the roots or surviving nodes keep is not collected. -/
theorem survives_collect (f : Forest) (roots : List NodeId) :
    f.Survives (f.collect roots) roots := by
  have hc := counts_ownerCounts f roots
  refine survives_release _ hc fun o ho => ?_
  have hz : (f.ownerCounts roots)[o]? = some 0 := by simpa using (List.mem_filter.mp ho).2
  exact (hc _ _ hz).symm

/-- Where containers survive with what they contain, containment survives. -/
theorem WellContained.survives (h : f.WellContained) (hs : f.Survives g roots) :
    g.WellContained := by
  have hcontents : ∀ {p c}, c ∈ g.contents p → f.parent? c = some p ∧ g.contains c := by
    intro p c hc
    obtain ⟨n, hn, hm⟩ := exists_node?_of_mem_contents hc
    have hf := hs.node?_eq hn
    have hp : f.parent? c = some p := h.parent_of_held (contents_of_node? hf ▸ hm)
    obtain ⟨⟨k, hk, -⟩, -⟩ := parent?_eq_some.mp hp
    have ho : c ∈ n.owned := by
      unfold Node.owned
      rw [(h.typed p n hf).children_eq]
      exact List.mem_append_left _ hm
    exact ⟨hp, hs.owned_kept hn ho (contains_of_node? hk)⟩
  have hlink : ∀ {c p}, g.parent? c = some p → f.parent? c = some p := by
    intro c p hp
    obtain ⟨⟨k, hk, hkp⟩, hc⟩ := parent?_eq_some.mp hp
    obtain ⟨m, hm⟩ := exists_node?_of_contains hc
    exact parent?_eq_some.mpr ⟨⟨k, hs.node?_eq hk, hkp⟩, contains_of_node? (hs.node?_eq hm)⟩
  refine ⟨fun {p c} hc => ?_, fun {p c} hp => ?_, ?_, fun id n hn => h.typed id n (hs.node?_eq hn)⟩
  · obtain ⟨hp, hl⟩ := hcontents hc
    obtain ⟨n, hn, -⟩ := exists_node?_of_mem_contents hc
    obtain ⟨k, hk⟩ := exists_node?_of_contains hl
    obtain ⟨⟨k', hk', hkp⟩, -⟩ := parent?_eq_some.mp hp
    obtain rfl : k = k' := Option.some.inj ((hs.node?_eq hk).symm.trans hk')
    exact parent?_eq_some.mpr ⟨⟨k, hk, hkp⟩, contains_of_node? hn⟩
  · obtain ⟨m, hm⟩ := exists_node?_of_contains (parent?_eq_some.mp hp).2
    rw [contents_of_node? hm, ← contents_of_node? (hs.node?_eq hm)]
    exact h.held_once (hlink hp)
  · exact acyclic_mono (fun c p hb => hlink hb) h.acyclic

end Forest

end Arbor
