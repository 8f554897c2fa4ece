import Arbor.Proofs.Schema.Families

/-!
Registering a kind of any family comes to an end. Kinds may extend each other in circles, so nothing
gets smaller from a kind to the one that it extends. But each extension that is followed is put on
record, and one that leads back to a name on record is refused; hence the names on the way up differ
from each other, and there are no more of them than kinds in the family. On the way up no name is
bound yet, so the first repetition is found at its place, and only where there is none the kinds are
bound on the way back.
-/
namespace Arbor

namespace Family
variable {f : Family} {k a b c : Kind} {m n : Nat}

/-- The kind that is `n` extensions above `k`. -/
def above? (f : Family) (k : Kind) : Nat → Option Kind
  | 0 => some k
  | n + 1 => (f.above? k n).bind f.superKind?

/-- No two of the kinds that are at most `n` extensions above `k` have the same name. -/
def DistinctUpTo (f : Family) (k : Kind) (n : Nat) : Prop :=
  ∀ i ≤ n, ∀ j ≤ n, ∀ a b, f.above? k i = some a → f.above? k j = some b →
    a.qualifiedName = b.qualifiedName → i = j

/-- No two of the kinds above `k`, itself included, have the same name. -/
def Distinct (f : Family) (k : Kind) : Prop := ∀ n, f.DistinctUpTo k n

/-- Going up from `k`, the kind `b` is the first one with a name that was there before, and `a`,
which is `n` extensions above `k`, extends it. -/
structure FirstRepeats (f : Family) (k : Kind) (n : Nat) (a b : Kind) : Prop where
  lower : f.above? k n = some a
  upper : f.above? k (n + 1) = some b
  distinct : f.DistinctUpTo k n
  repeated : ∃ i ≤ n, ∃ c, f.above? k i = some c ∧ c.qualifiedName = b.qualifiedName

/-- Why `a` cannot extend `b`, whose name is its own or that of a kind below it. -/
def refusal (a b : Kind) : SchemaError :=
  if b.qualifiedName = a.qualifiedName then
    .redefinition a.qualifiedName (.kind b.typeName) (.kind a.typeName)
  else .circularInheritance a.qualifiedName b.qualifiedName

theorem above?_succ (h : f.above? k n = some a) : f.above? k (n + 1) = f.superKind? a := by
  rw [above?, h, Option.bind_some]

theorem exists_above?_of_le (h : f.above? k n = some a) (hmn : m ≤ n) :
    ∃ b, f.above? k m = some b := by
  induction n generalizing a with
  | zero =>
    obtain rfl := Nat.le_zero.mp hmn
    exact ⟨a, h⟩
  | succ n ih =>
    rcases Nat.le_succ_iff.mp hmn with hmn | rfl
    · obtain ⟨b, hb, -⟩ := Option.bind_eq_some_iff.mp h
      exact ih hb hmn
    · exact ⟨a, h⟩

theorem distinctUpTo_zero (f : Family) (k : Kind) : f.DistinctUpTo k 0 := by
  intro i hi j hj _ _ _ _ _
  omega

theorem DistinctUpTo.succ (h : f.DistinctUpTo k n)
    (hnew : ∀ b, f.above? k (n + 1) = some b → ∀ i ≤ n, ∀ c, f.above? k i = some c →
      c.qualifiedName ≠ b.qualifiedName) : f.DistinctUpTo k (n + 1) := by
  intro i hi j hj a b ha hb hname
  rcases Nat.le_succ_iff.mp hi with hi | rfl
  · rcases Nat.le_succ_iff.mp hj with hj | rfl
    · exact h i hi j hj a b ha hb hname
    · exact absurd hname (hnew b hb i hi a ha)
  · rcases Nat.le_succ_iff.mp hj with hj | rfl
    · exact absurd hname.symm (hnew a ha j hj b hb)
    · rfl

/-- Where names are repeated, one is the first. -/
theorem exists_firstRepeats (h : ¬ f.Distinct k) : ∃ n a b, f.FirstRepeats k n a b := by
  by_contra hnone
  refine h fun n => ?_
  induction n with
  | zero => exact distinctUpTo_zero f k
  | succ n ih =>
    refine ih.succ fun b hb i hi c hc hname => hnone ?_
    obtain ⟨a, ha⟩ := exists_above?_of_le hb (Nat.le_succ n)
    exact ⟨n, a, b, ha, hb, ih, i, hi, c, hc, hname⟩

/-- The first repetition is not among names that differ. -/
theorem FirstRepeats.le_of_distinctUpTo (h : f.FirstRepeats k n a b) (hm : f.DistinctUpTo k m) :
    m ≤ n := by
  by_contra hlt
  obtain ⟨i, hi, c, hc, hname⟩ := h.repeated
  have hsame : i = n + 1 := hm i (by omega) (n + 1) (by omega) c b hc h.upper hname
  omega

theorem FirstRepeats.not_distinct (h : f.FirstRepeats k n a b) : ¬ f.Distinct k := by
  intro hdistinct
  have hle := h.le_of_distinctUpTo (hdistinct (n + 1))
  omega

/-- There is one first repetition at most. -/
theorem FirstRepeats.unique {a' b' : Kind} (h : f.FirstRepeats k n a b)
    (h' : f.FirstRepeats k m a' b') : a' = a ∧ b' = b := by
  obtain rfl : n = m :=
    Nat.le_antisymm (h'.le_of_distinctUpTo h.distinct) (h.le_of_distinctUpTo h'.distinct)
  exact ⟨Option.some.inj (h'.lower.symm.trans h.lower),
    Option.some.inj (h'.upper.symm.trans h.upper)⟩

end Family

theorem nodup_of_firstRepeated {seen names : List String} (h : firstRepeated seen names = none) :
    names.Nodup ∧ ∀ n ∈ names, n ∉ seen := by
  induction names generalizing seen with
  | nil => simp
  | cons name rest ih =>
    rw [firstRepeated] at h
    split at h
    · cases h
    · next hnew =>
      obtain ⟨hrest, hseen⟩ := ih h
      refine ⟨List.nodup_cons.mpr ⟨fun hmem => hseen name hmem List.mem_cons_self, hrest⟩, ?_⟩
      refine List.forall_mem_cons.mpr ⟨hnew, fun n hn hmem => ?_⟩
      exact hseen n hn (List.mem_cons_of_mem _ hmem)

/-- Properties are merged exactly if the own ones have different names. -/
theorem exists_mergeProperties_iff {name : QualifiedName} {inherited own : List Property} :
    (∃ merged, mergeProperties name inherited own = .ok merged) ↔ (own.map (·.name)).Nodup := by
  constructor
  · rintro ⟨merged, h⟩
    rw [mergeProperties] at h
    split at h
    · cases h
    · next hnone => exact (nodup_of_firstRepeated hnone).1
  · exact fun h => exists_mergeProperties h name inherited

namespace Registry
variable {f : Family} {k a b : Kind} {n : Nat} {r s : Registry}
  {registerKind : Kind → Registry → Except SchemaError Descriptor × Registry}

/-- The registry once it is on record that `a` extends `b`. -/
def extending (r : Registry) (a b : Kind) : Registry :=
  { r with graph := r.graph.addEdge a.qualifiedName b.qualifiedName }

/-- Registering without a bound on the extensions that are followed, from a kind and a registry to
the answer and the registry that is left. A kind that the registry does not have is defined, and
what it extends is registered before it if the extension is accepted. -/
inductive Registers (f : Family) :
    Kind → Registry → Except SchemaError Descriptor × Registry → Prop
  | known {k : Kind} {r : Registry} {d : Descriptor} (found : r.getKind? k = some d) :
      Registers f k r (.ok d, r)
  | define {k : Kind} {r : Registry}
      (registerKind : Kind → Registry → Except SchemaError Descriptor × Registry)
      (new : r.getKind? k = none)
      (above : ∀ j, f.Extends k j → j.qualifiedName ≠ k.qualifiedName →
        r.graph.wouldCreateCycle k.qualifiedName j.qualifiedName = false →
        Registers f j (r.extending k j) (registerKind j (r.extending k j))) :
      Registers f k r (defineWith registerKind (k.definition f) (.kind k.typeName) r)

section Ending

/-- The kinds `path` were reached one after the other, up to `k`: they have different names, and it
is on record that `k` is above each of them. -/
structure Ascent (f : Family) (path : List Kind) (k : Kind) (r : Registry) : Prop where
  mem : ∀ i ∈ path, i ∈ f.kinds
  names : (path.map (·.qualifiedName)).Nodup
  reaches : ∀ i ∈ path, r.graph.Reaches i.qualifiedName k.qualifiedName

theorem reaches_extending {name : QualifiedName}
    (h : r.graph.Reaches name a.qualifiedName) :
    (r.extending a b).graph.Reaches name b.qualifiedName := by
  have hkept : (r.extending a b).graph.Reaches name a.qualifiedName :=
    h.mono fun e he => (InheritanceGraph.mem_edges_addEdge _ _ _).mpr (.inl he)
  exact hkept.tail ((InheritanceGraph.mem_edges_addEdge _ _ _).mpr (.inr rfl))

theorem Ascent.length_le {path : List Kind} (h : Ascent f path k r) :
    path.length ≤ f.kinds.length :=
  h.names.of_map.length_le_of_subset h.mem

theorem Ascent.cons {path : List Kind} (h : Ascent f path a r) (hab : f.Extends a b)
    (hcycle : r.graph.wouldCreateCycle a.qualifiedName b.qualifiedName = false) :
    Ascent f (b :: path) b (r.extending a b) where
  mem := List.forall_mem_cons.mpr ⟨hab.mem, h.mem⟩
  names := by
    refine List.nodup_cons.mpr ⟨fun hmem => ?_, h.names⟩
    obtain ⟨i, hi, hname⟩ := List.mem_map.mp hmem
    have hback := h.reaches i hi
    rw [show i.qualifiedName = b.qualifiedName from hname] at hback
    rw [← InheritanceGraph.wouldCreateCycle_eq_true_iff, hcycle] at hback
    exact Bool.false_ne_true hback
  reaches := List.forall_mem_cons.mpr ⟨.refl, fun i hi => reaches_extending (h.reaches i hi)⟩

/-- The bound is never met: as the path grows by a kind of the family with each extension that is
followed, it is never longer than the family. -/
theorem registers_registerWithin {fuel : Nat} {path : List Kind} (hpath : Ascent f path k r)
    (hfuel : f.kinds.length < path.length + fuel) :
    Registers f k r (registerWithin f fuel k r) := by
  induction fuel generalizing k r path with
  | zero =>
    have hlength := hpath.length_le
    omega
  | succ fuel ih =>
    rw [registerWithin]
    split
    · next d hfound => exact .known hfound
    · next hnew =>
      refine .define _ hnew fun j hkj _ hcycle => ih (hpath.cons hkj hcycle) ?_
      rw [List.length_cons]
      omega

/-- Registering ends, whatever the registry has and whichever way the family extends itself. -/
theorem registers_register (f : Family) (k : Kind) (r : Registry) :
    Registers f k r (r.register f k) := by
  have hnone : Ascent f [] k r := ⟨nofun, .nil, nofun⟩
  exact registers_registerWithin hnone (by simp)

/-- A definition asks for the kind that it extends, and only if the extension is accepted. -/
theorem defineWith_congr
    {registerKind' : Kind → Registry → Except SchemaError Descriptor × Registry}
    (h : ∀ j, f.Extends k j → j.qualifiedName ≠ k.qualifiedName →
      r.graph.wouldCreateCycle k.qualifiedName j.qualifiedName = false →
      registerKind j (r.extending k j) = registerKind' j (r.extending k j)) (binding : Binding) :
    defineWith registerKind (k.definition f) binding r =
      defineWith registerKind' (k.definition f) binding r := by
  have hparent : resolveParent registerKind k.qualifiedName binding (k.definition f).parent r =
      resolveParent registerKind' k.qualifiedName binding (k.definition f).parent r := by
    rw [Kind.definition]
    cases hsuper : f.superKind? k with
    | none => rfl
    | some j =>
      rw [Option.map_some, resolveParent_kind, resolveParent_kind]
      split
      · rfl
      · next hname =>
        split
        · rfl
        · next hcycle =>
          have hsame := h j hsuper hname (Bool.eq_false_iff.mpr hcycle)
          rw [extending] at hsame
          rw [hsame]
  unfold defineWith
  rw [show (k.definition f).qualifiedName = k.qualifiedName from rfl, hparent]

/-- It ends in one way. -/
theorem Registers.unique {x y : Except SchemaError Descriptor × Registry}
    (hx : Registers f k r x) (hy : Registers f k r y) : x = y := by
  induction hx generalizing y with
  | known found =>
    cases hy with
    | known found' => rw [Option.some.inj (found.symm.trans found')]
    | define _ new _ => cases new.symm.trans found
  | define registerKind new above ih =>
    cases hy with
    | known found => cases new.symm.trans found
    | define registerKind' _ above' =>
      refine defineWith_congr (fun j hkj hname hcycle => ?_) _
      exact ih j hkj hname hcycle (above' j hkj hname hcycle)

end Ending

section Climbing

/-- A kind is being registered, and `n` extensions have been followed, up to `a`. They are all that
is on record. -/
structure Climb (f : Family) (k : Kind) (n : Nat) (a : Kind) (r : Registry) : Prop where
  place : f.above? k n = some a
  free : ∀ name, r.get? name = none
  new : ∀ j, r.getKind? j = none
  distinct : f.DistinctUpTo k n
  reaches : ∀ i ≤ n, ∀ c, f.above? k i = some c →
    r.graph.Reaches c.qualifiedName a.qualifiedName
  edges : ∀ name p, r.graph.Extends name p →
    ∃ i ≤ n, ∃ c, f.above? k i = some c ∧ c.qualifiedName = name

theorem climb_empty (policy : ConflictPolicy) (f : Family) (k : Kind) :
    Climb f k 0 k (empty policy) where
  place := rfl
  free _ := rfl
  new _ := rfl
  distinct := f.distinctUpTo_zero k
  reaches i hi c hc := by
    obtain rfl := Nat.le_zero.mp hi
    obtain rfl := Option.some.inj hc
    exact .refl
  edges _ _ h := by cases h

/-- A circle is found exactly at a name that was passed on the way. -/
theorem Climb.wouldCreateCycle_iff (h : Climb f k n a r) :
    r.graph.wouldCreateCycle a.qualifiedName b.qualifiedName = true ↔
      ∃ i ≤ n, ∃ c, f.above? k i = some c ∧ c.qualifiedName = b.qualifiedName := by
  rw [InheritanceGraph.wouldCreateCycle_eq_true_iff]
  constructor
  · intro hback
    rcases hback.cases_head with hname | ⟨p, hstep, -⟩
    · exact ⟨n, Nat.le_refl n, a, h.place, hname.symm⟩
    · exact h.edges _ p hstep
  · rintro ⟨i, hi, c, hc, hname⟩
    exact hname ▸ h.reaches i hi c hc

theorem Climb.firstRepeats (h : Climb f k n a r) (hab : f.Extends a b)
    (hcycle : r.graph.wouldCreateCycle a.qualifiedName b.qualifiedName = true) :
    f.FirstRepeats k n a b where
  lower := h.place
  upper := (Family.above?_succ h.place).trans hab
  distinct := h.distinct
  repeated := h.wouldCreateCycle_iff.mp hcycle

theorem Climb.next (h : Climb f k n a r) (hab : f.Extends a b)
    (hcycle : r.graph.wouldCreateCycle a.qualifiedName b.qualifiedName = false) :
    Climb f k (n + 1) b (r.extending a b) where
  place := (Family.above?_succ h.place).trans hab
  free := h.free
  new := h.new
  distinct := by
    refine h.distinct.succ fun b' hb' i hi c hc hname => ?_
    rw [Family.above?_succ h.place] at hb'
    obtain rfl := Option.some.inj (hb'.symm.trans hab)
    have hfound := h.wouldCreateCycle_iff.mpr ⟨i, hi, c, hc, hname⟩
    rw [hcycle] at hfound
    cases hfound
  reaches i hi c hc := by
    rcases Nat.le_succ_iff.mp hi with hi | rfl
    · exact reaches_extending (h.reaches i hi c hc)
    · rw [Family.above?_succ h.place] at hc
      obtain rfl := Option.some.inj (hc.symm.trans hab)
      exact .refl
  edges name p hstep := by
    rcases InheritanceGraph.mem_edges_addEdge _ _ _ |>.mp hstep with hold | hnew
    · obtain ⟨i, hi, c, hc⟩ := h.edges name p hold
      exact ⟨i, Nat.le_succ_of_le hi, c, hc⟩
    · obtain ⟨rfl, -⟩ := Prod.mk.inj hnew
      exact ⟨n, Nat.le_succ n, a, h.place, rfl⟩

/-- What comes of the kinds that are `n` or more extensions above `k`: the first repetition is
refused, and without one they are bound, unless one of them declares a property twice. -/
structure Settles (f : Family) (k : Kind) (n : Nat)
    (result : Except SchemaError Descriptor × Registry) : Prop where
  refused : ∀ m a b, f.FirstRepeats k m a b → result.1 = .error (Family.refusal a b)
  served : f.Distinct k → ((∃ d, result.1 = .ok d) ↔
    ∀ m, n ≤ m → ∀ a, f.above? k m = some a → (a.properties.map (·.name)).Nodup)
  bound : ∀ name d, result.2.get? name = some d →
    ∃ m, n ≤ m ∧ ∃ a, f.above? k m = some a ∧ a.qualifiedName = name

theorem settles_of_firstRepeats (hrepeats : f.FirstRepeats k n a b)
    (hfree : ∀ name, r.get? name = none) : Settles f k n (.error (Family.refusal a b), r) where
  refused m a' b' h := by
    obtain ⟨rfl, rfl⟩ := hrepeats.unique h
    rfl
  served h := absurd h hrepeats.not_distinct
  bound name d h := by
    rw [hfree name] at h
    cases h

theorem forall_le_iff_of_place {p : Kind → Prop} (ha : f.above? k n = some a) :
    (∀ m, n ≤ m → ∀ c, f.above? k m = some c → p c) ↔
      p a ∧ ∀ m, n + 1 ≤ m → ∀ c, f.above? k m = some c → p c := by
  constructor
  · exact fun h => ⟨h n (Nat.le_refl n) a ha, fun m hm => h m (Nat.le_of_succ_le hm)⟩
  · rintro ⟨hfirst, hrest⟩ m hm c hc
    rcases Nat.eq_or_lt_of_le hm with rfl | hm
    · obtain rfl := Option.some.inj (ha.symm.trans hc)
      exact hfirst
    · exact hrest m hm c hc

section Defining

theorem defineWith_of_refused {e : SchemaError}
    (h : resolveParent registerKind a.qualifiedName (.kind a.typeName) (a.definition f).parent r =
      (.error e, s)) :
    defineWith registerKind (a.definition f) (.kind a.typeName) r = (.error e, s) := by
  rw [defineWith, show (a.definition f).qualifiedName = a.qualifiedName from rfl, h]

/-- With its supertype at hand, a kind whose name is free is bound, unless it declares a property
twice. -/
theorem defineWith_of_parent {parent : Option Descriptor}
    (hparent : resolveParent registerKind a.qualifiedName (.kind a.typeName)
      (a.definition f).parent r = (.ok parent, s)) (hfree : s.get? a.qualifiedName = none) :
    let result := defineWith registerKind (a.definition f) (.kind a.typeName) r
    ((∃ d, result.1 = .ok d) ↔ (a.properties.map (·.name)).Nodup) ∧
      ∀ name d, result.2.get? name = some d → a.qualifiedName = name ∨ s.get? name = some d := by
  have hmerges : (∃ merged, mergeProperties a.qualifiedName ((parent.map (·.properties)).getD [])
      a.properties = .ok merged) ↔ (a.properties.map (·.name)).Nodup := exists_mergeProperties_iff
  rw [← hmerges]
  cases hmerge : mergeProperties a.qualifiedName ((parent.map (·.properties)).getD [])
      a.properties with
  | error e =>
    have hrun : defineWith registerKind (a.definition f) (.kind a.typeName) r = (.error e, s) := by
      rw [defineWith, show (a.definition f).qualifiedName = a.qualifiedName from rfl, hparent]
      dsimp only
      rw [show (a.definition f).properties = a.properties from rfl, hmerge]
    rw [hrun]
    exact ⟨by simp, fun _ _ => .inr⟩
  | ok merged =>
    rw [defineWith_of_free parent hparent hmerge hfree]
    refine ⟨by simp, fun name d hd => ?_⟩
    rw [get?_store] at hd
    split at hd
    · next hname => exact .inl hname
    · exact .inr hd

theorem parent_definition (hab : f.Extends a b) : (a.definition f).parent = some (.kind b) := by
  rw [Kind.definition, hab]
  rfl

/-- Where nothing is bound, no placeholder gives way to a kind of the same name. -/
theorem defineWith_of_circle (hab : f.Extends a b) (hfree : ∀ name, r.get? name = none)
    (hcycle : r.graph.wouldCreateCycle a.qualifiedName b.qualifiedName = true) :
    defineWith registerKind (a.definition f) (.kind a.typeName) r =
      (.error (Family.refusal a b), r) := by
  refine defineWith_of_refused ?_
  rw [parent_definition hab, resolveParent_kind, Family.refusal]
  by_cases hname : b.qualifiedName = a.qualifiedName
  · rw [if_pos hname, if_pos hname, promotedParent, hfree]
    rfl
  · rw [if_neg hname, if_neg hname, if_pos hcycle]

variable (registerKind) in
/-- A supertype that closes no circle is registered first. -/
theorem resolveParent_definition (hab : f.Extends a b) (hname : b.qualifiedName ≠ a.qualifiedName)
    (hcycle : r.graph.wouldCreateCycle a.qualifiedName b.qualifiedName = false) :
    resolveParent registerKind a.qualifiedName (.kind a.typeName) (a.definition f).parent r =
      ((registerKind b (r.extending a b)).1.map some, (registerKind b (r.extending a b)).2) := by
  rw [parent_definition hab, resolveParent_kind, if_neg hname, if_neg (by simp [hcycle])]
  rfl

end Defining

/-- A kind that extends none is the last one. -/
theorem Climb.settles_top (h : Climb f k n a r) (htop : f.superKind? a = none) :
    Settles f k n (defineWith registerKind (a.definition f) (.kind a.typeName) r) := by
  have hplace := h.place
  have hlast : ∀ m, n + 1 ≤ m → f.above? k m = none := by
    intro m hm
    by_contra hsome
    obtain ⟨c, hc⟩ := Option.ne_none_iff_exists'.mp hsome
    obtain ⟨b, hb⟩ := Family.exists_above?_of_le hc hm
    cases hb.symm.trans ((Family.above?_succ hplace).trans htop)
  have hparent : resolveParent registerKind a.qualifiedName (.kind a.typeName)
      (a.definition f).parent r = (.ok none, r) := by
    rw [Kind.definition, htop]
    rfl
  obtain ⟨hserved, hbound⟩ := defineWith_of_parent hparent (h.free _)
  refine ⟨fun m c b hrepeats => ?_, fun _ => ?_, fun name d hd => ?_⟩
  · have hle := hrepeats.le_of_distinctUpTo h.distinct
    cases (hlast (m + 1) (by omega)).symm.trans hrepeats.upper
  · rw [hserved, forall_le_iff_of_place hplace]
    refine ⟨fun h => ⟨h, fun m hm c hc => ?_⟩, And.left⟩
    cases (hlast m hm).symm.trans hc
  · rcases hbound name d hd with hname | hold
    · exact ⟨n, Nat.le_refl n, a, hplace, hname⟩
    · rw [h.free name] at hold
      cases hold

/-- Whatever refuses a kind further up refuses the kinds below it. -/
theorem Settles.refuses {e : SchemaError} (h : Settles f k (n + 1) (.error e, s))
    (hplace : f.above? k n = some a) : Settles f k n (.error e, s) where
  refused := h.refused
  served hdistinct := by
    rw [forall_le_iff_of_place hplace, ← h.served hdistinct]
    simp
  bound name d hd := by
    obtain ⟨m, hm, c, hc⟩ := h.bound name d hd
    exact ⟨m, Nat.le_of_succ_le hm, c, hc⟩

/-- A kind whose supertype was bound. Only kinds further up are bound by now, and they have other
names. -/
theorem Settles.defines {p : Descriptor} (h : Settles f k (n + 1) (.ok p, s))
    (hplace : f.above? k n = some a)
    (hparent : resolveParent registerKind a.qualifiedName (.kind a.typeName)
      (a.definition f).parent r = (.ok (some p), s)) :
    Settles f k n (defineWith registerKind (a.definition f) (.kind a.typeName) r) := by
  have hdistinct : f.Distinct k := by
    by_contra hnot
    obtain ⟨m, c, b, hrepeats⟩ := Family.exists_firstRepeats hnot
    cases h.refused m c b hrepeats
  have hfree : s.get? a.qualifiedName = none := by
    by_contra hsome
    obtain ⟨d, hd⟩ := Option.ne_none_iff_exists'.mp hsome
    obtain ⟨m, hm, c, hc, hcname⟩ := h.bound _ d hd
    have hsame : m = n := hdistinct m m (Nat.le_refl m) n (by omega) c a hc hplace hcname
    omega
  obtain ⟨hserved, hbound⟩ := defineWith_of_parent hparent hfree
  have habove := (h.served hdistinct).mp ⟨p, rfl⟩
  refine ⟨fun m c b hrepeats => ?_, fun _ => ?_, fun name d hd => ?_⟩
  · exact absurd hdistinct hrepeats.not_distinct
  · rw [hserved, forall_le_iff_of_place hplace]
    exact ⟨fun h => ⟨h, habove⟩, And.left⟩
  · rcases hbound name d hd with hname | hold
    · exact ⟨n, Nat.le_refl n, a, hplace, hname⟩
    · obtain ⟨m, hm, c, hc⟩ := h.bound name d hold
      exact ⟨m, Nat.le_of_succ_le hm, c, hc⟩

/-- Going up, each kind settles what it and the kinds above it come to. -/
theorem Registers.settles {result : Except SchemaError Descriptor × Registry}
    (h : Registers f a r result) (hclimb : Climb f k n a r) : Settles f k n result := by
  induction h generalizing n with
  | known found =>
    rw [hclimb.new] at found
    cases found
  | @define a r registerKind new above ih =>
    cases hsuper : f.superKind? a with
    | none => exact hclimb.settles_top hsuper
    | some b =>
      cases hcycle : r.graph.wouldCreateCycle a.qualifiedName b.qualifiedName with
      | true =>
        rw [defineWith_of_circle hsuper hclimb.free hcycle]
        exact settles_of_firstRepeats (hclimb.firstRepeats hsuper hcycle) hclimb.free
      | false =>
        have hname : b.qualifiedName ≠ a.qualifiedName := by
          intro hname
          have hfound := hclimb.wouldCreateCycle_iff.mpr
            ⟨n, Nat.le_refl n, a, hclimb.place, hname.symm⟩
          cases hcycle.symm.trans hfound
        have hsettles := ih b hsuper hname hcycle (hclimb.next hsuper hcycle)
        have hparent := resolveParent_definition registerKind hsuper hname hcycle
        cases hanswer : registerKind b (r.extending a b) with
        | mk answer s =>
          rw [hanswer] at hsettles hparent
          cases answer with
          | error e =>
            rw [defineWith_of_refused hparent]
            exact hsettles.refuses hclimb.place
          | ok p => exact hsettles.defines hclimb.place hparent

end Climbing

/-- Registering a kind of any family on an empty registry ends, with one answer. The answer is a
type exactly if the names of the kind and of all above it differ and none of them declares a
property twice. Where a name is repeated the answer is an error about the first kind, going up, that
extends one of a name below it: a redefinition if that name is its own, and else a circle. -/
theorem register_exact (policy : ConflictPolicy) (f : Family) (k : Kind) :
    (∀ result, Registers f k (empty policy) result ↔ result = (empty policy).register f k) ∧
    ((∃ d, ((empty policy).register f k).1 = .ok d) ↔ f.Distinct k ∧
      ∀ n a, f.above? k n = some a → (a.properties.map (·.name)).Nodup) ∧
    (¬ f.Distinct k → ∃ n a b, f.FirstRepeats k n a b ∧
      ((empty policy).register f k).1 = .error (
        if b.qualifiedName = a.qualifiedName then
          .redefinition a.qualifiedName (.kind b.typeName) (.kind a.typeName)
        else .circularInheritance a.qualifiedName b.qualifiedName)) := by
  have hends := registers_register f k (empty policy)
  have hsettles := hends.settles (climb_empty policy f k)
  have hrefused : ¬ f.Distinct k → ∃ n a b, f.FirstRepeats k n a b ∧
      ((empty policy).register f k).1 = .error (Family.refusal a b) := by
    intro hnot
    obtain ⟨n, a, b, hrepeats⟩ := Family.exists_firstRepeats hnot
    exact ⟨n, a, b, hrepeats, hsettles.refused n a b hrepeats⟩
  refine ⟨fun result => ⟨fun h => h.unique hends, fun h => h ▸ hends⟩, ?_, hrefused⟩
  constructor
  · rintro ⟨d, hd⟩
    have hdistinct : f.Distinct k := by
      by_contra hnot
      obtain ⟨n, a, b, -, herror⟩ := hrefused hnot
      cases hd.symm.trans herror
    exact ⟨hdistinct, fun n => (hsettles.served hdistinct).mp ⟨d, hd⟩ n (Nat.zero_le n)⟩
  · rintro ⟨hdistinct, hproperties⟩
    exact (hsettles.served hdistinct).mpr fun n _ => hproperties n

end Registry

end Arbor
