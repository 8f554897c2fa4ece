import Arbor.Proofs.Transform.Filling

/-!
Rule nodes that a transformer renders one to one. A factory renders a rule node if its constructor
makes one new node, and the wirings of the node's properties read, one property after the other,
exactly the rule nodes under it; or if the constructor fails before it makes anything, and there is
nothing under the rule node that could be lost. Where this holds all the way down, what the
transformer makes mirrors the rule node.
-/
namespace Arbor

namespace Transformer
open Forest ParseTree

/-- What the wirings of a factory read from a rule node, property by property. -/
inductive Supplies (f : Factory) (nodeType : QualifiedName) (n : ParseNode) :
    List Property → List ParseNode → Prop
  | nil : Supplies f nodeType n [] []
  | unwired {p : Property} {ps : List Property} {cs : List ParseNode}
      (hw : wiringOf f nodeType p.name = none) (h : Supplies f nodeType n ps cs) :
      Supplies f nodeType n (p :: ps) cs
  | single {p : Property} {ps : List Property} {cs : List ParseNode} {w : Wiring}
      {c : Option ParseNode} (hw : wiringOf f nodeType p.name = some w)
      (hset : w.setter = some .schema) (hname : w.name = p.name) (hk : p.isChild)
      (hm : p.multiple = false)
      (hget : ∀ forest, w.get forest (.tree n) = .ok (.ofOption (c.map .tree)))
      (h : Supplies f nodeType n ps cs) : Supplies f nodeType n (p :: ps) (c.toList ++ cs)
  | collection {p : Property} {ps : List Property} {cs ds : List ParseNode} {w : Wiring}
      (hw : wiringOf f nodeType p.name = some w) (hset : w.setter = some .schema)
      (hname : w.name = p.name) (hk : p.isChild) (hm : p.multiple)
      (hget : ∀ forest, w.get forest (.tree n) = .ok (.many (ds.map .tree)))
      (h : Supplies f nodeType n ps cs) : Supplies f nodeType n (p :: ps) (ds ++ cs)

/-- How many parts of a rule node the wiring of a property reads. -/
def share (f : Factory) (nodeType : QualifiedName) (n : ParseNode) (p : Property) : Nat :=
  match wiringOf f nodeType p.name with
  | none => 0
  | some w =>
      match w.get {} (.tree n) with
      | .ok raw => raw.toList.length
      | .error _ => 0

/-- A node whose slots hold as many nodes as the wirings of its factory read for them, where there
is anything to read. A slot without nodes has no trace of any. -/
structure Arranged (t : Transformer) (m : Node) : Prop where
  bare : ∀ s ∈ m.slots, s.nodes = [] → s.bare = s
  shares {n : ParseNode} {f : Factory} : m.origin = some (.source (.tree n)) →
    t.factories.get? n.rule.name = some f → n.childNodes = [] ∨
      ∀ j p, m.descriptor.properties[j]? = some p →
        (m.slot j).nodes.length = share f m.qualifiedName n p

/-- The constructor fails before it makes a node, or makes one that its wirings fill. -/
def Constructs (f : Factory) (K : Registry → Prop) (n : ParseNode) : Prop :=
  ∀ supply (w : Workshop), K w.world.registry →
    (n.childNodes = [] ∧ ∃ cause, (f.construct supply (.tree n)).outcome w = (.error cause, w)) ∨
    ∃ r m, (f.construct supply (.tree n)).outcome w =
        (.ok [w.world.forest.size], w.withWorld r (w.world.forest.alloc m).2) ∧
      K r ∧ m.Fresh ∧ Supplies f m.qualifiedName n m.descriptor.properties n.childNodes

/-- A rule node that is rendered one to one, and all that is under it. -/
inductive Renders (t : Transformer) (K : Registry → Prop) : ParseNode → Prop
  | intro {n : ParseNode} {f : Factory} (hf : t.factories.get? n.rule.name = some f)
      (hsource : f.sourceType = n.rule.name) (hskips : f.skipsChildren = false)
      (hconstructed : f.constructsChildren = false) (hfinalize : f.finalize = none)
      (hconstructs : Constructs f K n) (hbelow : ∀ c ∈ n.childNodes, Renders t K c) :
      Renders t K n

/-- How a rule node may be depicted: by the node that the constructor of its factory makes, or by an
error node where the constructor fails before it makes any. -/
def Depicts (t : Transformer) (K : Registry → Prop) (n : ParseNode) (d : Descriptor)
    (data : List Slot) : Prop :=
  ∃ f supply w, t.factories.get? n.rule.name = some f ∧ K w.world.registry ∧
    ((∃ r m, (f.construct supply (.tree n)).outcome w =
        (.ok [w.world.forest.size], w.withWorld r (w.world.forest.alloc m).2) ∧
        d = m.descriptor ∧ data = m.data) ∨
      (∃ cause, (f.construct supply (.tree n)).outcome w = (.error cause, w) ∧
          data = errorData n.rule.name cause) ∧
        ∃ r r', K r ∧ r.register .builtin .errorNode = (.ok d, r'))

/-- What the work of a transformer keeps. -/
structure Ready (t : Transformer) (K : Registry → Prop) (w : Workshop) : Prop where
  agrees : t.Agrees w.toNotes
  registry : K w.world.registry

/-- The workshop `w'` is `w` with the trees for rule nodes behind what was there. -/
structure Built (t : Transformer) (K : Registry → Prop) (w w' : Workshop) (parent : Option Nat)
    (cs : List ParseNode) : Prop where
  ready : t.Ready K w'
  size : w'.world.forest.size = w.world.forest.size + countOf cs
  older {j : Nat} : j < w.world.forest.size → w'.world.forest.node? j = w.world.forest.node? j
  mirrors : w'.world.forest.MirrorsAll (t.Depicts K) parent w.world.forest.size cs
  arranged {j : Nat} {k : Node} : w.world.forest.size ≤ j → w'.world.forest.node? j = some k →
    t.Arranged k

/-- Making the node of a rule node works out everywhere. -/
def Makes (t : Transformer) (K : Registry → Prop) (make : Making) (n : ParseNode) : Prop :=
  ∀ w parent, t.Ready K w → ∃ w',
    (make (.tree n) parent).outcome w = (.ok [w.world.forest.size], w') ∧ t.Built K w w' parent [n]

section Parts
variable {t : Transformer} {K : Registry → Prop} {make : Making} {parent : Option Nat}
  {w w₁ w₂ : Workshop} {cs ds : List ParseNode}

theorem Built.refl (hw : t.Ready K w) : t.Built K w w parent [] where
  ready := hw
  size := rfl
  older _ := rfl
  mirrors := mirrorsAll_nil
  arranged hj hk := absurd (lt_size_of_node? hk) (Nat.not_lt.mpr hj)

theorem Built.trans (h₁ : t.Built K w w₁ parent cs) (h₂ : t.Built K w₁ w₂ parent ds) :
    t.Built K w w₂ parent (cs ++ ds) where
  ready := h₂.ready
  size := by rw [h₂.size, h₁.size, countOf_append, Nat.add_assoc]
  older {j} hj := by
    have hlt : j < w₁.world.forest.size := by rw [h₁.size]; omega
    rw [h₂.older hlt, h₁.older hj]
  mirrors := by
    refine mirrorsAll_append.mpr ⟨h₁.mirrors.congr fun j _ hj => h₂.older ?_, ?_⟩
    · rw [h₁.size]
      exact hj
    · rw [← h₁.size]
      exact h₂.mirrors
  arranged {j k} hj hk := by
    by_cases hlt : j < w₁.world.forest.size
    · exact h₁.arranged hj (h₂.older hlt ▸ hk)
    · exact h₂.arranged (Nat.not_lt.mp hlt) hk

theorem outcome_makeAll (hmake : ∀ c ∈ cs, t.Makes K make c) (hw : t.Ready K w) :
    ∃ w', (makeAll make parent (cs.map .tree)).outcome w =
        (.ok (placesFrom w.world.forest.size cs), w') ∧ t.Built K w w' parent cs := by
  induction cs generalizing w with
  | nil => exact ⟨w, rfl, .refl hw⟩
  | cons c cs ih =>
    obtain ⟨w₁, hfirst, hb₁⟩ := hmake c (by simp) w parent hw
    obtain ⟨w₂, hrest, hb₂⟩ := ih (fun d hd => hmake d (by simp [hd])) hb₁.ready
    refine ⟨w₂, ?_, hb₁.trans hb₂⟩
    have hsize : w₁.world.forest.size = w.world.forest.size + c.nodeCount := by
      simp [hb₁.size, countOf]
    rw [List.map_cons, makeAll, Work.outcome_bind_ok hfirst, Work.outcome_bind_ok hrest, placesFrom,
      hsize]
    rfl

end Parts

section Wiring
variable {t : Transformer} {K : Registry → Prop} {make : Making} {w w' : Workshop} {old : Forest}
  {n c : ParseNode} {m : Node} {held cs : List ParseNode} {i : Nat} {p : Property} {wi : Wiring}
  {f : Factory} {nodeType : QualifiedName}

/-- Parts are made behind the node that is to contain them. -/
theorem Built.filling (hb : t.Built K w w' (some old.size) cs)
    (h : old.Filling (t.Depicts K) t.Arranged n held held w.world.forest m) :
    old.Filling (t.Depicts K) t.Arranged n held (held ++ cs) w'.world.forest m where
  node := by
    rw [hb.older (by rw [h.size]; omega)]
    exact h.node
  stands := h.stands
  contents := h.contents
  size := by rw [hb.size, h.size, countOf_append, Nat.add_assoc]
  below := by
    refine mirrorsAll_append.mpr ⟨h.below.congr fun j _ hj => hb.older ?_, ?_⟩
    · rw [h.size]
      exact hj
    · rw [← h.size]
      exact hb.mirrors
  older {j} hj := by
    rw [hb.older (by rw [h.size]; omega)]
    exact h.older hj
  bare := h.bare
  behind {j k} hj hk := by
    by_cases hlt : j < w.world.forest.size
    · exact h.behind hj (hb.older hlt ▸ hk)
    · exact hb.arranged (Nat.not_lt.mp hlt) hk

theorem outcome_storeBySchema_one {id : Nat} {g : Forest} (hnode : w.world.forest.node? id = some m)
    (hp : m.descriptor.property? p.name = some p) (hm : p.multiple = false)
    (hset : w.world.forest.setChild id p.name i = .ok g) :
    (storeBySchema p.name id (.one i)).outcome w = (.ok (), w.withWorld w.world.registry g) := by
  rw [storeBySchema, Work.outcome_bind_ok Work.outcome_forest]
  simp only [hnode, Option.any_some, hp, hm, Bool.false_eq_true, if_false]
  exact Work.outcome_change hset

theorem outcome_storeBySchema_many {id : Nat} {ids : List Nat}
    (hnode : w.world.forest.node? id = some m) (hp : m.descriptor.property? p.name = some p)
    (hm : p.multiple) :
    (storeBySchema p.name id (.many ids)).outcome w =
      (Work.addChildren id p.name ids).outcome w := by
  rw [storeBySchema, Work.outcome_bind_ok Work.outcome_forest]
  simp only [hnode, Option.any_some, hp, hm, if_true]

/-- What a wiring read is made and stored. -/
theorem outcome_wireProperty_of_get {id : Nat} {raw : Portion Source} {content : Portion Nat}
    {w₁ w₂ : Workshop} (hfind : (findWiring f nodeType p.name).outcome w = (.ok (some wi), w₁))
    (hget : wi.get w₁.world.forest (.tree n) = .ok raw)
    (hraw : (transformRaw make raw (some id)).outcome w₁ = (.ok content, w₂))
    (hset : wi.setter = some .schema) (hone : ∀ c, content = .one c → p.multiple = false) :
    (wireProperty make f id nodeType (.tree n) p).outcome w =
      (Work.explain (TransformError.childWiring nodeType.display p.name)
        (storeBySchema wi.name id content)).outcome w₂ := by
  rw [wireProperty, Work.outcome_bind_ok hfind]
  dsimp only
  rw [Work.outcome_bind_ok Work.outcome_forest, hget]
  dsimp only
  rw [Work.outcome_bind_ok hraw]
  cases content with
  | one c => simp only [hone c rfl, Bool.false_eq_true, if_false, store, hset]
  | _ => simp only [store, hset]

/-- One property is filled with the next parts, and others are left alone. -/
def Fills (t : Transformer) (K : Registry → Prop) (make : Making) (f : Factory)
    (nodeType : QualifiedName) (n : ParseNode) (p : Property) (cs : List ParseNode) : Prop :=
  ∀ (old : Forest) (w : Workshop) (m : Node) (held : List ParseNode) (i : Nat),
    t.Ready K w → old.Filling (t.Depicts K) t.Arranged n held held w.world.forest m →
    m.descriptor.properties[i]? = some p → (∀ j, i ≤ j → (m.slot j).nodes = []) →
    ∃ w' m', (wireProperty make f old.size nodeType (.tree n) p).outcome w = (.ok (), w') ∧
      t.Ready K w' ∧
      old.Filling (t.Depicts K) t.Arranged n (held ++ cs) (held ++ cs) w'.world.forest m' ∧
      m'.descriptor = m.descriptor ∧ (∀ j, i ≠ j → m'.slot j = m.slot j) ∧
      (m'.slot i).nodes.length = cs.length

theorem fills_unwired (hf : t.factories.get? f.sourceType = some f)
    (hwiring : wiringOf f nodeType p.name = none) : t.Fills K make f nodeType n p [] := by
  intro old w m held i hw hfill _ hempty
  obtain ⟨w₁, hfind, hworld, hagrees⟩ := outcome_findWiring hw.agrees hf nodeType p.name
  refine ⟨w₁, m, ?_, ⟨hagrees, hworld ▸ hw.registry⟩, ?_, rfl, fun j _ => rfl, ?_⟩
  · rw [wireProperty, Work.outcome_bind_ok hfind, hwiring]
    rfl
  · rw [hworld, List.append_nil]
    exact hfill
  · rw [hempty i (Nat.le_refl i)]
    rfl

theorem fills_single {c : Option ParseNode} (hf : t.factories.get? f.sourceType = some f)
    (hwiring : wiringOf f nodeType p.name = some wi) (hset : wi.setter = some .schema)
    (hname : wi.name = p.name) (hk : p.isChild) (hm : p.multiple = false)
    (hget : ∀ forest, wi.get forest (.tree n) = .ok (.ofOption (c.map .tree)))
    (hmake : ∀ d ∈ c.toList, t.Makes K make d) :
    t.Fills K make f nodeType n p c.toList := by
  intro old w m held i hw hfill hp hempty
  obtain ⟨w₁, hfind, hworld, hagrees⟩ := outcome_findWiring hw.agrees hf nodeType p.name
  rw [hwiring] at hfind
  rw [← hworld] at hfill
  have hw₁ : t.Ready K w₁ := ⟨hagrees, hworld ▸ hw.registry⟩
  cases c with
  | none =>
    refine ⟨w₁, m, ?_, hw₁, by simpa using hfill, rfl, fun j _ => rfl, ?_⟩
    · rw [outcome_wireProperty_of_get hfind (hget _) rfl hset (by simp)]
      rfl
    · rw [hempty i (Nat.le_refl i)]
      rfl
  | some c =>
    obtain ⟨w₂, hmade, hb⟩ := hmake c (by simp) w₁ (some old.size) hw₁
    -- the part points at the node before it is put in, and the node stands free until the end
    have hfill₂ := hb.filling hfill
    obtain ⟨g, s, hchild, hnodes, hg⟩ := hfill₂.setChild hp hk hm hempty
    have hraw : (transformRaw make (.ofOption (some (.tree c))) (some old.size)).outcome w₁ =
        (.ok (.one (old.size + 1 + countOf held)), w₂) := by
      rw [← hfill.size, Portion.ofOption, transformRaw, Work.outcome_bind_ok hmade]
      rfl
    refine ⟨w₂.withWorld w₂.world.registry g, _, ?_, ⟨hb.ready.agrees, hb.ready.registry⟩, hg,
      rfl, fun j hj => Node.slot_setSlot_of_ne hj, ?_⟩
    · rw [outcome_wireProperty_of_get hfind (hget _) hraw hset fun _ _ => hm, Work.outcome_explain,
        hname, outcome_storeBySchema_one hfill₂.node
          (Node.property?_of_getElem? hfill₂.stands.names hp) hm hchild]
      rfl
    · rw [Node.slot_setSlot (hfill.stands.typed.lt_length hp), hnodes]
      rfl

theorem fills_collection (hf : t.factories.get? f.sourceType = some f)
    (hwiring : wiringOf f nodeType p.name = some wi) (hset : wi.setter = some .schema)
    (hname : wi.name = p.name) (hk : p.isChild) (hm : p.multiple)
    (hget : ∀ forest, wi.get forest (.tree n) = .ok (.many (cs.map .tree)))
    (hmake : ∀ d ∈ cs, t.Makes K make d) : t.Fills K make f nodeType n p cs := by
  intro old w m held i hw hfill hp hempty
  obtain ⟨w₁, hfind, hworld, hagrees⟩ := outcome_findWiring hw.agrees hf nodeType p.name
  rw [hwiring] at hfind
  rw [← hworld] at hfill
  have hw₁ : t.Ready K w₁ := ⟨hagrees, hworld ▸ hw.registry⟩
  obtain ⟨w₂, hmade, hb⟩ := outcome_makeAll hmake hw₁
  have hfill₂ := hb.filling hfill
  obtain ⟨g, m', hadd, hg, hd, hother, hcount⟩ := hfill₂.addChildren hp hk hm
    fun j hj => hempty j (Nat.le_of_lt hj)
  rw [hempty i (Nat.le_refl i), List.length_nil, Nat.zero_add] at hcount
  have hraw : (transformRaw make (.many (cs.map .tree)) (some old.size)).outcome w₁ =
      (.ok (.many (placesFrom (old.size + 1 + countOf held) cs)), w₂) := by
    rw [← hfill.size, transformRaw, Work.outcome_bind_ok hmade]
    rfl
  refine ⟨w₂.withWorld w₂.world.registry g, m', ?_, ⟨hb.ready.agrees, hb.ready.registry⟩, hg, hd,
    hother, hcount⟩
  rw [outcome_wireProperty_of_get hfind (hget _) hraw hset (by simp), Work.outcome_explain, hname,
    outcome_storeBySchema_many hfill₂.node (Node.property?_of_getElem? hfill₂.stands.names hp) hm,
    hadd]
  rfl

/-- Between `m` and `m'`, the properties from the `i`-th on got their shares. -/
structure SharedFrom (f : Factory) (nodeType : QualifiedName) (n : ParseNode) (i : Nat)
    (m m' : Node) : Prop where
  descriptor : m'.descriptor = m.descriptor
  before {j : Nat} : j < i → m'.slot j = m.slot j
  behind {j : Nat} {p : Property} : i ≤ j → m.descriptor.properties[j]? = some p →
    (m'.slot j).nodes.length = share f nodeType n p

theorem sharedFrom_end (hi : m.descriptor.properties.drop i = []) :
    SharedFrom f nodeType n i m m where
  descriptor := rfl
  before _ := rfl
  behind {j p} hj hp := by
    have hlt := (List.getElem?_eq_some_iff.mp hp).1
    have hle := List.drop_eq_nil_iff.mp hi
    omega

theorem SharedFrom.step {m₁ m₂ : Node} (hp : m.descriptor.properties[i]? = some p)
    (hd : m₁.descriptor = m.descriptor) (hother : ∀ j, i ≠ j → m₁.slot j = m.slot j)
    (hcount : (m₁.slot i).nodes.length = share f nodeType n p)
    (h : SharedFrom f nodeType n (i + 1) m₁ m₂) : SharedFrom f nodeType n i m m₂ where
  descriptor := h.descriptor.trans hd
  before {j} hj := (h.before (by omega)).trans (hother j (by omega))
  behind {j q} hj hq := by
    rcases Nat.eq_or_lt_of_le hj with rfl | hj
    · obtain rfl := Option.some.inj (hp.symm.trans hq)
      rw [h.before (Nat.lt_succ_self i), hcount]
    · exact h.behind hj (hd ▸ hq)

theorem wireProperties_step {ps : List Property} {ds : List ParseNode}
    (hfills : t.Fills K make f nodeType n p cs) (hshare : cs.length = share f nodeType n p)
    (hw : t.Ready K w)
    (hfill : old.Filling (t.Depicts K) t.Arranged n held held w.world.forest m)
    (hps : m.descriptor.properties.drop i = p :: ps) (hempty : ∀ j, i ≤ j → (m.slot j).nodes = [])
    (hrest : ∀ w₁ m₁, t.Ready K w₁ →
      old.Filling (t.Depicts K) t.Arranged n (held ++ cs) (held ++ cs) w₁.world.forest m₁ →
      m₁.descriptor.properties.drop (i + 1) = ps → (∀ j, i + 1 ≤ j → (m₁.slot j).nodes = []) →
      ∃ w' m', (wireProperties make f old.size nodeType (.tree n) ps).outcome w₁ = (.ok (), w') ∧
        t.Ready K w' ∧ SharedFrom f nodeType n (i + 1) m₁ m' ∧
        old.Filling (t.Depicts K) t.Arranged n (held ++ cs ++ ds) (held ++ cs ++ ds)
          w'.world.forest m') :
    ∃ w' m', (wireProperties make f old.size nodeType (.tree n) (p :: ps)).outcome w =
        (.ok (), w') ∧ t.Ready K w' ∧ SharedFrom f nodeType n i m m' ∧
      old.Filling (t.Depicts K) t.Arranged n (held ++ (cs ++ ds)) (held ++ (cs ++ ds))
        w'.world.forest m' := by
  have hp : m.descriptor.properties[i]? = some p := by
    rw [← List.head?_drop, hps]
    rfl
  have hnext : m.descriptor.properties.drop (i + 1) = ps := by
    rw [← List.tail_drop, hps]
    rfl
  obtain ⟨w₁, m₁, hfirst, hw₁, hfill₁, hd, hother, hcount⟩ :=
    hfills old w m held i hw hfill hp hempty
  have hempty₁ : ∀ j, i + 1 ≤ j → (m₁.slot j).nodes = [] := by
    intro j hj
    rw [hother j (by omega)]
    exact hempty j (by omega)
  obtain ⟨w₂, m₂, hlast, hw₂, hshared, hfill₂⟩ := hrest w₁ m₁ hw₁ hfill₁ (hd ▸ hnext) hempty₁
  refine ⟨w₂, m₂, ?_, hw₂, hshared.step hp hd hother (hcount.trans hshare), ?_⟩
  · rw [wireProperties, Work.outcome_bind_ok hfirst, hlast]
  · rwa [← List.append_assoc]

/-- The properties are filled one after the other. -/
theorem outcome_wireProperties {ps : List Property} (hf : t.factories.get? f.sourceType = some f)
    (hs : Supplies f nodeType n ps cs) (hmake : ∀ c ∈ cs, t.Makes K make c) (hw : t.Ready K w)
    (hfill : old.Filling (t.Depicts K) t.Arranged n held held w.world.forest m)
    (hps : m.descriptor.properties.drop i = ps) (hempty : ∀ j, i ≤ j → (m.slot j).nodes = []) :
    ∃ w' m', (wireProperties make f old.size nodeType (.tree n) ps).outcome w = (.ok (), w') ∧
      t.Ready K w' ∧ SharedFrom f nodeType n i m m' ∧
      old.Filling (t.Depicts K) t.Arranged n (held ++ cs) (held ++ cs) w'.world.forest m' := by
  induction hs generalizing w m held i with
  | nil => exact ⟨w, m, rfl, hw, sharedFrom_end hps, by simpa using hfill⟩
  | @unwired p _ _ hwiring _ ih =>
    have hnone : ([] : List ParseNode).length = share f nodeType n p := by
      rw [share, hwiring]
      rfl
    exact wireProperties_step (fills_unwired hf hwiring) hnone hw hfill hps hempty
      fun w₁ m₁ hw₁ hfill₁ hps₁ hempty₁ => ih hmake hw₁ hfill₁ hps₁ hempty₁
  | @single p _ _ _ c hwiring hset hname hk hm hget _ ih =>
    have hfills := fills_single hf hwiring hset hname hk hm hget fun d hd =>
      hmake d (List.mem_append_left _ hd)
    have hshare : c.toList.length = share f nodeType n p := by
      simp only [share, hwiring, hget]
      cases c <;> rfl
    exact wireProperties_step hfills hshare hw hfill hps hempty
      fun w₁ m₁ hw₁ hfill₁ hps₁ hempty₁ =>
        ih (fun d hd => hmake d (List.mem_append_right _ hd)) hw₁ hfill₁ hps₁ hempty₁
  | @collection p _ _ ds _ hwiring hset hname hk hm hget _ ih =>
    have hfills := fills_collection hf hwiring hset hname hk hm hget fun d hd =>
      hmake d (List.mem_append_left _ hd)
    have hshare : ds.length = share f nodeType n p := by
      simp [share, hwiring, hget, Portion.toList]
    exact wireProperties_step hfills hshare hw hfill hps hempty
      fun w₁ m₁ hw₁ hfill₁ hps₁ hempty₁ =>
        ih (fun d hd => hmake d (List.mem_append_right _ hd)) hw₁ hfill₁ hps₁ hempty₁

end Wiring

section Making
variable {t : Transformer} {K : Registry → Prop} {make : Making} {w : Workshop} {n : ParseNode}
  {m : Node} {f : Factory} {parent : Option Nat}

theorem outcome_forNodes_one {step : NodeId → Work TransformError Unit} {id : Nat} {w' : Workshop}
    (h : (step id).outcome w = (.ok (), w')) : (forNodes step [id]).outcome w = (.ok (), w') := by
  rw [forNodes, Work.outcome_bind_ok h]
  rfl

theorem setOrigin_alloc (f : Forest) (m : Node) (n : ParseNode) :
    (f.alloc m).2.setOrigin f.size (some (.source (.tree n))) =
      (f.alloc { m with origin := some (.source (.tree n)) }).2 :=
  update_alloc f m _

theorem outcome_setOrigin_alloc {r : Registry} (hhooks : t.hooks = .parseTree)
    (hfresh : m.Fresh) :
    (forNodes (fun id => Work.modifyForest fun forest =>
      if ((forest.node? id).bind (·.origin)).isNone then
        forest.setOrigin id (t.hooks.origin (.tree n))
      else forest) [w.world.forest.size]).outcome (w.withWorld r (w.world.forest.alloc m).2) =
    (.ok (), w.withWorld r
      (w.world.forest.alloc { m with origin := some (.source (.tree n)) }).2) := by
  apply outcome_forNodes_one
  have hnode : (w.world.forest.alloc m).2.node? w.world.forest.size = some m := by
    simp [node?_alloc]
  rw [Work.outcome_modifyForest]
  simp [Workshop.withWorld, hnode, hfresh.origin, hhooks, Hooks.parseTree, Source.tree?,
    setOrigin_alloc]

theorem filling_alloc (old : Forest) (hfresh : m.Fresh)
    (hlook : t.Depicts K n m.descriptor m.data) :
    old.Filling (t.Depicts K) t.Arranged n [] []
      (old.alloc { m with origin := some (.source (.tree n)) }).2
      { m with origin := some (.source (.tree n)) } where
  node := by simp [node?_alloc]
  stands := ⟨rfl, hfresh.parent, hfresh.pin, hfresh.typed, hfresh.names, hlook⟩
  contents := hfresh.contents
  size := by simp [countOf]
  below := mirrorsAll_nil
  older hj := by rw [node?_alloc, if_neg (Nat.ne_of_lt hj)]
  bare s hs _ := hfresh.bare s hs
  behind {j k} hj hk := by
    have hlt := lt_size_of_node? hk
    rw [size_alloc] at hlt
    exact absurd hj (Nat.not_lt.mpr (Nat.le_of_lt_succ hlt))

theorem outcome_wireChildren {old : Forest} (hw : t.Ready K w)
    (hfill : old.Filling (t.Depicts K) t.Arranged n [] [] w.world.forest m)
    (hempty : ∀ j, (m.slot j).nodes = []) (hhooks : t.hooks = .parseTree)
    (hf : t.factories.get? n.rule.name = some f) (hsource : f.sourceType = n.rule.name)
    (hs : Supplies f m.qualifiedName n m.descriptor.properties n.childNodes)
    (hmake : ∀ c ∈ n.childNodes, t.Makes K make c) :
    ∃ w' m', (t.wireChildren make f (.tree n) old.size).outcome w = (.ok (), w') ∧ t.Ready K w' ∧
      t.Arranged m' ∧
      old.Filling (t.Depicts K) t.Arranged n n.childNodes n.childNodes w'.world.forest m' := by
  obtain ⟨w', m', hwire, hw', hshared, hfill'⟩ :=
    outcome_wireProperties (hsource ▸ hf) hs hmake hw hfill (i := 0) rfl fun j _ => hempty j
  refine ⟨w', m', ?_, hw', ⟨hfill'.bare, fun {n' f'} horigin hf' => .inr fun j p hp => ?_⟩, hfill'⟩
  · rw [wireChildren, Work.outcome_bind_ok Work.outcome_forest, hfill.node]
    simp only [hhooks, Hooks.parseTree, hfill.node, Option.bind_some, hfill.stands.origin]
    exact hwire
  · obtain rfl : n' = n := by simpa [hfill'.stands.origin, eq_comm] using horigin
    obtain rfl := Option.some.inj (hf.symm.trans hf')
    rw [Node.qualifiedName, hshared.descriptor]
    exact hshared.behind (Nat.zero_le j) (hshared.descriptor ▸ hp)

/-- Once the properties are filled and the link is set, the new nodes mirror the rule node. -/
theorem Filling.built {w₁ : Workshop} (hw₁ : t.Ready K w₁) (hm : t.Arranged m)
    (h : w.world.forest.Filling (t.Depicts K) t.Arranged n n.childNodes n.childNodes
      w₁.world.forest m) :
    t.Built K w (w₁.withWorld w₁.world.registry
      (w₁.world.forest.setParent w.world.forest.size parent)) parent [n] := by
  have hself : (w₁.world.forest.setParent w.world.forest.size parent).node? w.world.forest.size =
      some (m.setParent parent) := by
    rw [setParent, node?_update, if_pos rfl, h.node]
    rfl
  have hother : ∀ j, j ≠ w.world.forest.size →
      (w₁.world.forest.setParent w.world.forest.size parent).node? j = w₁.world.forest.node? j := by
    intro j hj
    rw [setParent, node?_update, if_neg hj]
  have hbelow : (w₁.world.forest.setParent w.world.forest.size parent).MirrorsAll
      (t.Depicts K) (some w.world.forest.size) (w.world.forest.size + 1) n.childNodes :=
    h.below.congr fun j hj _ => hother j (Nat.ne_of_gt hj)
  constructor
  · exact ⟨hw₁.agrees, hw₁.registry⟩
  · have hcount := n.nodeCount_eq
    simp only [Workshop.withWorld, setParent, size_update, h.size, countOf, List.map_cons,
      List.map_nil, List.sum_cons, List.sum_nil] at hcount ⊢
    omega
  · intro j hj
    exact (hother j (Nat.ne_of_lt hj)).trans (h.older hj)
  · refine mirrorsAll_cons.mpr ⟨.intro hself h.stands.setParent ?_ hbelow, mirrorsAll_nil⟩
    rw [(h.stands.typed.setParent parent).children_eq, Node.contents_setParent, h.contents]
  · intro j k hj hk
    rcases Nat.eq_or_lt_of_le hj with rfl | hlt
    · obtain rfl := Option.some.inj (hself.symm.trans hk)
      exact ⟨hm.bare, hm.shares⟩
    · exact h.behind hlt ((hother j (Nat.ne_of_gt hlt)).symm.trans hk)

/-- What a constructor made is completed. -/
theorem outcome_complete {r : Registry} (hhooks : t.hooks = .parseTree)
    (hf : t.factories.get? n.rule.name = some f) (hsource : f.sourceType = n.rule.name)
    (hskips : f.skipsChildren = false) (hconstructed : f.constructsChildren = false)
    (hfinalize : f.finalize = none)
    (hagrees : t.Agrees w.toNotes) (hr : K r) (hfresh : m.Fresh)
    (hlook : t.Depicts K n m.descriptor m.data)
    (hs : Supplies f m.qualifiedName n m.descriptor.properties n.childNodes)
    (hmake : ∀ c ∈ n.childNodes, t.Makes K make c) (parent : Option Nat) :
    ∃ w', (t.complete make f (.tree n) parent [w.world.forest.size]).outcome
        (w.withWorld r (w.world.forest.alloc m).2) = (.ok [w.world.forest.size], w') ∧
      t.Built K w w' parent [n] := by
  have hready : t.Ready K (w.withWorld r
      (w.world.forest.alloc { m with origin := some (.source (.tree n)) }).2) := ⟨hagrees, hr⟩
  obtain ⟨w₁, m₁, hwire, hw₁, hm₁, hfill⟩ := outcome_wireChildren hready
    (filling_alloc w.world.forest hfresh hlook) hfresh.slot_nodes hhooks hf hsource hs hmake
  refine ⟨_, ?_, Filling.built hw₁ hm₁ hfill⟩
  unfold complete
  simp only [hskips, hconstructed, hfinalize]
  rw [Work.outcome_bind_ok (outcome_setOrigin_alloc hhooks hfresh)]
  simp only [Bool.not_false, Bool.and_self, if_true]
  rw [Work.outcome_bind_ok (outcome_forNodes_one hwire),
    Work.outcome_bind_ok (outcome_forNodes_one (Work.outcome_modifyForest _))]
  rfl

/-- Error nodes can be made whenever the registry is as wanted. -/
def RegistersErrors (K : Registry → Prop) : Prop :=
  ∀ r, K r → ∃ d r', r.register .builtin .errorNode = (.ok d, r') ∧
    d.properties = Kind.errorNode.properties ∧ K r'

/-- A constructor that fails leaves room for an error node. -/
theorem outcome_makeError (herror : RegistersErrors K) (hhooks : t.hooks = .parseTree)
    (hw : t.Ready K w) (hleaf : n.childNodes = []) (parent : Option Nat) {cause : Failure}
    (hf : t.factories.get? n.rule.name = some f) {supply : ChildSupply}
    (hfailed : (f.construct supply (.tree n)).outcome w = (.error cause, w)) :
    ∃ w', (t.makeError (.tree n) parent cause).outcome w = (.ok w.world.forest.size, w') ∧
      t.Built K w w' parent [n] := by
  obtain ⟨d, r, hregister, hproperties, hr⟩ := herror _ hw.registry
  have hdeclared : Kind.errorNode.properties <+: d.properties := hproperties ▸ List.prefix_rfl
  have hnames : (d.properties.map (·.name)).Nodup := by rw [hproperties]; decide
  obtain ⟨hmade, hfresh⟩ :=
    outcome_makeError_alloc hregister hdeclared hnames (.tree n) parent cause
  have hdata : (Node.starting d (errorData n.rule.name cause)).data =
      errorData n.rule.name cause := by
    rw [Node.data, Node.starting, hproperties]
    rfl
  have hlook : t.Depicts K n d (Node.starting d (errorData n.rule.name cause)).data :=
    ⟨f, supply, w, hf, hw.registry,
      .inr ⟨⟨cause, hfailed, hdata⟩, w.world.registry, r, hw.registry, hregister⟩⟩
  have hfill := filling_alloc w.world.forest hfresh hlook
  rw [← hleaf] at hfill
  have hready : t.Ready K (w.withWorld r (w.world.forest.alloc
      { Node.starting d (errorData n.rule.name cause) with
        origin := some (.source (.tree n)) }).2) := ⟨hw.agrees, hr⟩
  have hm : t.Arranged { Node.starting d (errorData n.rule.name cause) with
      origin := some (.source (.tree n)) } := by
    refine ⟨fun s hs _ => hfresh.bare s hs, fun {n' f'} horigin _ => .inl ?_⟩
    obtain rfl : n = n' := by simpa using horigin
    exact hleaf
  refine ⟨_, hmade.trans ?_, Filling.built hready hm hfill⟩
  simp only [Workshop.withWorld, hhooks, Hooks.parseTree, Source.tree?, Option.map_some,
    setOrigin_alloc]
  rfl

theorem Built.of_world {w₁ w' : Workshop} {cs : List ParseNode} (hworld : w₁.world = w.world)
    (hb : t.Built K w₁ w' parent cs) : t.Built K w w' parent cs := by
  obtain ⟨hready, hsize, holder, hmirrors, harranged⟩ := hb
  rw [hworld] at hsize holder hmirrors harranged
  exact ⟨hready, hsize, holder, hmirrors, harranged⟩

/-- Depth enough for all rule nodes is enough. -/
theorem makes_makeWithin (herror : RegistersErrors K) (hhooks : t.hooks = .parseTree)
    (hgeneric : t.config.allowGenericNode) {depth : Nat} (h : t.Renders K n)
    (hdepth : n.nodeCount ≤ depth) : t.Makes K (t.makeWithin depth) n := by
  -- a level of sources is a level of rule nodes, and every part has fewer of them than the whole
  induction depth generalizing n with
  | zero =>
    have hcount := n.nodeCount_eq
    omega
  | succ depth ih =>
    obtain ⟨hf, hsource, hskips, hconstructed, hfinalize, hconstructs, hbelow⟩ := h
    next f =>
    have hmake : ∀ c ∈ n.childNodes, t.Makes K (t.makeWithin depth) c := by
      intro c hc
      have hlt := RuleNode.nodeCount_lt_of_mem hc
      exact ih (hbelow c hc) (by omega)
    intro w parent hw
    obtain ⟨w₁, hresolve, hworld, hagrees⟩ := outcome_resolveFactory hw.agrees hf
    have hr : K w₁.world.registry := hworld ▸ hw.registry
    rw [makeWithin, Work.outcome_bind_ok hresolve]
    dsimp only
    rw [Work.outcome_bind_ok Work.outcome_forest, Work.outcome_bind_ok (Work.outcome_attempt _)]
    rcases hconstructs (transformChild (t.makeWithin depth) f) w₁ hr with
      ⟨hleaf, cause, hfailed⟩ | ⟨r, m, hmade, hr', hfresh, hs⟩
    · rw [hfailed]
      dsimp only
      obtain ⟨w₂, herr, hb⟩ := outcome_makeError herror hhooks ⟨hagrees, hr⟩ hleaf parent hf hfailed
      refine ⟨w₂, ?_, hb.of_world hworld⟩
      -- the constructor made nothing, so there is nothing to drop
      have hkeep : w₁.world.forest.collectSince w₁.world.forest.size [] = w₁.world.forest := by
        simp [collectSince]
      rw [Work.outcome_bind_ok Work.outcome_forest, if_pos hgeneric, hkeep,
        Work.outcome_bind_ok (Work.outcome_setForest _)]
      rw [← hworld]
      exact Work.outcome_bind_ok herr _
    · rw [hmade]
      dsimp only
      have hlook : t.Depicts K n m.descriptor m.data :=
        ⟨f, _, w₁, hf, hr, .inl ⟨r, m, hmade, rfl, rfl⟩⟩
      obtain ⟨w₂, hcomplete, hb⟩ := outcome_complete hhooks hf hsource hskips hconstructed
        hfinalize hagrees hr' hfresh hlook hs hmake parent
      refine ⟨w₂, ?_, hb.of_world hworld⟩
      rw [← hworld]
      exact hcomplete

/-- A tree that is rendered one to one is mapped to a tree that mirrors it. -/
theorem mapTree_of_renders (herror : RegistersErrors K) (hhooks : t.hooks = .parseTree)
    (hgeneric : t.config.allowGenericNode) {depth : Nat} (h : t.Renders K n)
    (hdepth : n.nodeCount ≤ depth) (hw : t.Ready K w) :
    ∃ w', t.mapTree depth n w =
        (.ok (some w.world.forest.size), w'.issues, { w' with issues := [] }) ∧
      t.Built K w w' none [n] := by
  obtain ⟨w', hmade, hb⟩ := makes_makeWithin herror hhooks hgeneric h hdepth w none hw
  refine ⟨w', ?_, hb⟩
  have htransform : (t.transform depth (.one (.tree n)) none).outcome w =
      (.ok (some w.world.forest.size), w') := by
    rw [transform, transformIntoNodes, Work.outcome_bind_ok hmade]
    rfl
  rw [Work.outcome] at htransform
  rw [mapTree, htransform]

end Making

end Transformer

end Arbor
