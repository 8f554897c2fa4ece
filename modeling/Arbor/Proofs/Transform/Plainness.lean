import Arbor.Proofs.Transform.Drafting

/-!
Plain transformers. Their constructors make new nodes from the source alone, and these may name each
other. Their wirings store by the schema, and a wiring that is found for a property is one of that
name. Where the type of a source tells its supertypes, the notes on factories and wirings never
change what is found.
-/
namespace Arbor

/-- A text comes apart at its last mark in one way. -/
theorem append_mark_inj {mark : Char} {a b c d : List Char} (hb : mark ∉ b) (hd : mark ∉ d)
    (h : a ++ mark :: b = c ++ mark :: d) : a = c ∧ b = d := by
  rcases List.append_eq_append_iff.mp h with ⟨e, hc, he⟩ | ⟨e, ha, he⟩
  · cases e with
    | nil => simpa [eq_comm] using And.intro hc he
    | cons x e =>
      obtain ⟨-, rfl⟩ := List.cons.inj he
      simp at hb
  · cases e with
    | nil => simpa [eq_comm] using And.intro ha he
    | cons x e =>
      obtain ⟨-, rfl⟩ := List.cons.inj he
      simp at hd

namespace Factory

/-- A factory with wirings for child properties only, all of which store by the schema. -/
inductive Wired : Factory → Prop
  | bare {f : Factory} (hwirings : f.wirings = ∅) (hfinalize : f.finalize = none)
      (hskips : f.skipsChildren = false) (hconstructs : f.constructsChildren = false) : Wired f
  | withChild {f : Factory} (h : Wired f) {name : String} (hname : '#' ∉ name.toList)
      (get : Forest → Source → Except Failure (Portion Source)) : Wired (f.withChild name get)
  | withScopedChild {f : Factory} (h : Wired f) (scope : QualifiedName) {name : String}
      (hname : '#' ∉ name.toList) (get : Forest → Source → Except Failure (Portion Source)) :
      Wired (f.withScopedChild scope name get)

section Wired
variable {f : Factory} {key : String} {v : Wiring}

theorem Wired.steps (h : f.Wired) :
    f.finalize = none ∧ f.skipsChildren = false ∧ f.constructsChildren = false := by
  induction h with
  | bare _ hfinalize hskips hconstructs => exact ⟨hfinalize, hskips, hconstructs⟩
  | withChild _ _ _ ih => simpa [Factory.withChild, addWiring] using ih
  | withScopedChild _ _ _ _ ih => simpa [Factory.withScopedChild, addWiring] using ih

/-- A wiring stands under its own name, alone or behind a node type. -/
theorem Wired.get?_wirings (h : f.Wired) (hv : f.wirings.get? key = some v) :
    v.setter = some .schema ∧ '#' ∉ v.name.toList ∧
      (key = v.name ∨ ∃ scope, key = scopedKey scope v.name) := by
  induction h with
  | bare hwirings => simp [hwirings] at hv
  | @withChild f _ name hname get ih =>
    simp only [Factory.withChild, addWiring, Table.get?_insert] at hv
    split at hv
    · next heq =>
      obtain rfl := Option.some.inj hv
      exact ⟨rfl, hname, .inl heq.symm⟩
    · exact ih hv
  | @withScopedChild f _ scope name hname get ih =>
    simp only [Factory.withScopedChild, addWiring, Table.get?_insert] at hv
    split at hv
    · next heq =>
      obtain rfl := Option.some.inj hv
      exact ⟨rfl, hname, .inr ⟨scope, heq.symm⟩⟩
    · exact ih hv

theorem toList_scopedKey (scope : QualifiedName) (name : String) :
    (scopedKey scope name).toList = scope.display.toList ++ '#' :: name.toList := by
  simp [scopedKey]

/-- The wiring that is found for a property is one of this name. -/
theorem Wired.wiringOf (h : f.Wired) {nodeType : QualifiedName} {property : String}
    (hplain : '#' ∉ property.toList) (hv : Transformer.wiringOf f nodeType property = some v) :
    v.setter = some .schema ∧ v.name = property := by
  obtain ⟨key, hkey, hget⟩ := Option.bind_eq_some_iff.mp hv
  obtain ⟨hset, hname, hplace⟩ := h.get?_wirings hget
  refine ⟨hset, ?_⟩
  simp only [Transformer.wiringKey] at hkey
  split_ifs at hkey
  · obtain rfl := Option.some.inj hkey
    rcases hplace with hown | ⟨scope, hscope⟩
    · rw [← hown, toList_scopedKey] at hname
      simp at hname
    · have htext := congrArg String.toList hscope
      rw [toList_scopedKey, toList_scopedKey] at htext
      exact String.toList_inj.mp (append_mark_inj hplain hname htext).2.symm
  · obtain rfl := Option.some.inj hkey
    rcases hplace with hown | ⟨scope, hscope⟩
    · exact hown.symm
    · rw [hscope, toList_scopedKey] at hplain
      simp at hplain

end Wired

/-- A constructor that makes the same of a source whatever was made before, up to the numbers of
the new cells, by which the nodes that it makes may name each other: distinct new nodes without
parent and children, or none where it fails. It changes no node that is there and writes nothing
down. -/
def Crafts (f : Factory) (old : Forest) (s : Source) : Prop :=
  ∀ supply (w : Workshop), w.world.forest.Extends old → w.world.registry.Open →
    ∃ w', w'.toNotes = w.toNotes ∧ w'.world.forest.Extends w.world.forest ∧
      w'.world.registry.Open ∧
      ((∃ cause, (f.construct supply s).outcome w = (.error cause, w') ∧
          f.craft old s w.world.ledger = (.error cause, w'.world.ledger)) ∨
        ∃ ids looks, (f.construct supply s).outcome w = (.ok ids, w') ∧
          f.craft old s w.world.ledger = (.ok (ids.zip looks), w'.world.ledger) ∧ ids.Nodup ∧
          (∀ id ∈ ids, w.world.forest.size ≤ id) ∧ w'.world.forest.Looks ids looks)

section Allocating
variable {f : Factory} {looks : NodeId → List Node}

/-- A constructor that puts nodes into the next cells. The nodes may name each other, but depend on
the numbers of these cells in no other way. -/
structure Allocates (f : Factory) (looks : NodeId → List Node) : Prop where
  bare {first : NodeId} {n : Node} : n ∈ looks first → n.Bare
  numbers (old : Forest) (first : NodeId) :
    (looks old.size).map (·.renumber (old.numberFrom first)) = looks first
  made (supply : ChildSupply) (s : Source) (w : Workshop) : (f.construct supply s).outcome w =
    (.ok (List.range' w.world.forest.size (looks w.world.forest.size).length),
      w.withWorld w.world.registry (w.world.forest.allocAll (looks w.world.forest.size)))

/-- The cells that are taken hold the nodes. -/
theorem Allocates.looks_allocAll (h : f.Allocates looks) (g : Forest) :
    (g.allocAll (looks g.size)).Looks (List.range' g.size (looks g.size).length)
      (looks g.size) := by
  have hnodes := g.forall₂_allocAll (looks g.size)
  have hbare := (List.forall₂_and_left _ _).mpr ⟨fun n hn => h.bare hn, hnodes.flip⟩
  exact hbare.flip.imp fun _ _ hn => ⟨hn.2, hn.1⟩

theorem Allocates.craft_eq (h : f.Allocates looks) (old : Forest) (s : Source) (l : Ledger) :
    f.craft old s l = (.ok ((List.range' l.cells (looks l.cells).length).zip (looks l.cells)),
      ⟨l.registry, l.cells + (looks l.cells).length⟩) := by
  have hlength : (looks old.size).length = (looks l.cells).length := by
    rw [← h.numbers old l.cells, List.length_map]
  have hread : (List.range' old.size (looks old.size).length).filterMap (fun id =>
      ((old.allocAll (looks old.size)).node? id).map fun n =>
        (old.numberFrom l.cells id, n.renumber (old.numberFrom l.cells))) =
      (List.range' l.cells (looks l.cells).length).zip (looks l.cells) := by
    rw [Forest.filterMap_allocAll old (looks old.size) fun id n =>
        (old.numberFrom l.cells id, n.renumber (old.numberFrom l.cells)),
      ← h.numbers old l.cells, List.length_map, ← old.map_numberFrom_range' l.cells, List.zip,
      List.zipWith_map]
  rw [craft, h.made]
  simp only [Workshop.withWorld, Except.map]
  rw [hread, Forest.size_allocAll, Forest.numberFrom_size_add, hlength]

theorem Allocates.crafts (h : f.Allocates looks) (old : Forest) (s : Source) :
    f.Crafts old s := by
  intro supply w _ hopen
  refine ⟨w.withWorld w.world.registry (w.world.forest.allocAll (looks w.world.forest.size)), rfl,
    Forest.extends_allocAll _ _, hopen, .inr ⟨_, looks w.world.forest.size, h.made supply s w, ?_,
      List.nodup_range', fun id hid => (List.mem_range'_1.mp hid).1, h.looks_allocAll _⟩⟩
  rw [h.craft_eq]
  simp [World.ledger, Workshop.withWorld]

/-- A constructor that makes one empty node of a type with plain property names. -/
theorem allocates_blank {d : Descriptor} (hnames : (d.properties.map (·.name)).Nodup)
    (hplain : ∀ p ∈ d.properties, '#' ∉ p.name.toList)
    (hmade : ∀ supply s (w : Workshop), (f.construct supply s).outcome w =
      (.ok [w.world.forest.size],
        w.withWorld w.world.registry (w.world.forest.alloc (.blank d)).2)) :
    f.Allocates fun _ => [.blank d] where
  bare hn := by
    obtain rfl := List.mem_singleton.mp hn
    exact ⟨Node.typed_blank d, Node.contents_blank d, rfl, hnames, hplain⟩
  numbers old first := by simp
  made := hmade

end Allocating

end Factory

namespace Source
variable {s : Source} {old f : Forest}

theorem Settled.sourceType_eq (hs : s.Settled old) (hf : f.Extends old) :
    f.sourceType s = old.sourceType s := by
  cases s with
  | node id => simp [Forest.sourceType, hf.older (hs id rfl)]
  | _ => rfl

theorem Settled.sourceSupertypes_eq (hs : s.Settled old) (hf : f.Extends old) :
    f.sourceSupertypes s = old.sourceSupertypes s := by
  cases s with
  | node id => simp [Forest.sourceSupertypes, hf.older (hs id rfl)]
  | _ => rfl

theorem Settled.mono (hs : s.Settled old) (hf : f.Extends old) : s.Settled f :=
  fun id hid => Nat.lt_of_lt_of_le (hs id hid) hf.size

theorem Settled.node?_ne {id : NodeId} (hs : s.Settled old) (hid : old.size ≤ id) :
    s.node? ≠ some id :=
  fun h => Nat.not_lt.mpr hid (hs id h)

end Source

namespace Transformer
open Work

/-- A transformer with the default hooks, generic nodes and plain factories only, whose wirings read
the same from a source whatever was made since the forest was `old`. -/
structure Plain (t : Transformer) (old : Forest) : Prop where
  hooks : t.hooks = {}
  generic : t.config.allowGenericNode
  keyed {name : String} {f : Factory} : t.factories.get? name = some f → f.sourceType = name
  wired {name : String} {f : Factory} : t.factories.get? name = some f → f.Wired
  crafts {name : String} {f : Factory} {s : Source} :
    t.factories.get? name = some f → s.Settled old → f.Crafts old s
  reads {name key : String} {f : Factory} {v : Wiring} {s : Source} {g : Forest} :
    t.factories.get? name = some f → f.wirings.get? key = some v → s.Settled old →
    g.Extends old → v.get g s = v.get old s

/-- Notes that lead where the factories lead, if `above` tells the supertypes of each type. -/
structure Recalls (t : Transformer) (above : String → List String) (notes : Notes) : Prop where
  resolved {name : String} {key : Option String} :
    notes.resolved.get? name = some key → key = t.firstServed (name :: above name)
  wired : t.KnowsWirings notes

/-- A workshop in which the engine can go on from `old`. -/
structure Sound (t : Transformer) (old : Forest) (above : String → List String) (w : Workshop) :
    Prop where
  forest : w.world.forest.Extends old
  registry : w.world.registry.Open
  notes : t.Recalls above w.toNotes

section Resolving
variable {t : Transformer} {old : Forest} {above : String → List String} {w : Workshop}
  {s : Source}

theorem Sound.withNotes (hw : t.Sound old above w) {notes : Notes} (h : t.Recalls above notes) :
    t.Sound old above { w with toNotes := notes } :=
  ⟨hw.forest, hw.registry, h⟩

/-- The factory that is found is the one that is to serve, whether it was noted or not. -/
theorem outcome_resolveFactory_of_sound (hw : t.Sound old above w) (hs : s.Settled old)
    (habove : old.sourceSupertypes s = above (old.sourceType s)) :
    ∃ w', (t.resolveFactory s).outcome w = (.ok (t.serving old s), w') ∧ w'.world = w.world ∧
      t.Sound old above w' := by
  have htype := hs.sourceType_eq hw.forest
  have hchain : w.world.forest.sourceChain s =
      old.sourceType s :: above (old.sourceType s) := by
    rw [Forest.sourceChain, htype, hs.sourceSupertypes_eq hw.forest, habove]
  have hserving : t.serving old s = (t.firstServed
      (old.sourceType s :: above (old.sourceType s))).bind t.factories.get? := by
    rw [serving, Forest.sourceChain, habove]
  obtain ⟨resolved, hfound, hnew⟩ := outcome_resolveFactory_of_known (t := t) (s := s)
    fun key hkey => by rw [hw.notes.resolved hkey, hchain, htype]
  rw [hchain, ← hserving] at hfound
  refine ⟨_, hfound, rfl, hw.withNotes ⟨fun {name key} hget => ?_, hw.notes.wired⟩⟩
  rcases hnew name key hget with hold | ⟨rfl, rfl⟩
  · exact hw.notes.resolved hold
  · rw [hchain, htype]

theorem outcome_findWiring_of_sound {f : Factory} (hw : t.Sound old above w)
    (hf : t.factories.get? f.sourceType = some f) (nodeType : QualifiedName) (property : String) :
    ∃ w', (findWiring f nodeType property).outcome w = (.ok (wiringOf f nodeType property), w') ∧
      w'.world = w.world ∧ t.Sound old above w' := by
  obtain ⟨wired, hfind, hknows⟩ := outcome_findWiring_of_knows hw.notes.wired hf nodeType property
  exact ⟨_, hfind, rfl, hw.withNotes ⟨hw.notes.resolved, hknows⟩⟩

end Resolving

end Transformer

end Arbor
