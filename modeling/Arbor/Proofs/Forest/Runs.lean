import Arbor.Forest.World
import Arbor.Proofs.Forest.Ownership

/-!
Forests that come about by edits. An edit may be refused and then changes nothing; nodes may be
dropped between edits, whatever is still held from outside. Every run of edits from the empty forest
keeps containment. A link may lead to a node that is gone, but never to a cell that is not given out
yet, so a new node takes up no old link.
-/
namespace Arbor
open Relation

namespace Forest
variable {f g : Forest} {c p id j owner child : NodeId} {n : Node} {i : Nat} {name : String}

/-- Links lead to cells that were given out. -/
def LinksBounded (f : Forest) : Prop :=
  ∀ id n p, f.node? id = some n → n.parent = some p → p < f.size

theorem LinksBounded.update (hb : f.LinksBounded) {change : Node → Node}
    (hc : ∀ n p, f.node? id = some n → (change n).parent = some p → p < f.size) :
    (f.update id change).LinksBounded := by
  intro j n p hn hp
  rw [node?_update] at hn
  rw [size_update]
  split at hn
  · obtain ⟨m, hm, rfl⟩ := Option.map_eq_some_iff.mp hn
    exact hc m p hm hp
  · exact hb j n p hn hp

theorem LinksBounded.update_of_parent (hb : f.LinksBounded) {change : Node → Node}
    (hp : ∀ n, (change n).parent = n.parent) : (f.update id change).LinksBounded :=
  hb.update fun n q hn hq => hb id n q hn (hp n ▸ hq)

theorem LinksBounded.setParent (hb : f.LinksBounded) (id : NodeId) {p : Option NodeId}
    (hp : ∀ q, p = some q → q < f.size) : (f.setParent id p).LinksBounded :=
  hb.update fun _ q _ hq => hp q hq

theorem LinksBounded.detach (hb : f.LinksBounded) (id : NodeId) :
    (f.detach id).2.LinksBounded := by
  unfold Forest.detach
  split
  · exact hb
  · next q _ =>
    have hrel : (f.update q (·.release id)).LinksBounded := hb.update_of_parent fun _ => rfl
    exact hrel.setParent _ (by simp)

theorem LinksBounded.place (hb : f.LinksBounded) (ho : f.contains owner) (i : Nat)
    (child : NodeId) : (f.place owner i child).LinksBounded := by
  have hbounds : (f.place owner i child).LinksBounded ∧ owner < (f.place owner i child).size := by
    refine place_induction (motive := fun g => g.LinksBounded ∧ owner < g.size) i ?_
      (fun g q h => ?_) fun g h => ?_
    · exact ⟨hb.update_of_parent fun _ => rfl, by simpa using lt_size_of_contains ho⟩
    · exact ⟨h.1.setParent q (by simp), by simpa [Forest.setParent] using h.2⟩
    · exact ⟨h.1.setParent child (by simpa using h.2), by simpa [Forest.setParent] using h.2⟩
  exact hbounds.1

theorem LinksBounded.append (hb : f.LinksBounded) (ho : f.contains owner) (i : Nat)
    (child : NodeId) : (f.append owner i child).LinksBounded := by
  have hlt := lt_size_of_contains ho
  unfold Forest.append
  refine LinksBounded.setParent ?_ _ (by simpa using hlt)
  exact hb.update_of_parent fun _ => rfl

/-- What every run of edits keeps. -/
structure Sound (f : Forest) : Prop extends f.WellContained where
  links : f.LinksBounded

theorem sound_empty : ({} : Forest).Sound where
  parent_of_held h := by simp [contents] at h
  held_once h := by simp [parent?] at h
  acyclic id h := by
    obtain ⟨c, hc, -⟩ := TransGen.head'_iff.mp h
    simp [Below, parent?] at hc
  typed := by simp [Typed]
  links := by simp [LinksBounded]

theorem Sound.update (h : f.Sound) {change : Node → Node}
    (hparent : ∀ n, (change n).parent = n.parent)
    (hcount : ∀ n x, f.node? id = some n → (change n).contents.count x = n.contents.count x)
    (htyped : ∀ n, f.node? id = some n → (change n).Typed) : (f.update id change).Sound :=
  ⟨h.toWellContained.update hparent hcount htyped, h.links.update_of_parent hparent⟩

/-- A change of what is neither link, type nor slot. -/
theorem Sound.relabel (h : f.Sound) {change : Node → Node}
    (hparent : ∀ n, (change n).parent = n.parent) (hslots : ∀ n, (change n).slots = n.slots)
    (htype : ∀ n, (change n).descriptor = n.descriptor) : (f.update id change).Sound := by
  refine h.update hparent (fun n x _ => by simp [Node.contents, hslots]) fun n hn => ?_
  unfold Node.Typed
  rw [hslots, htype]
  exact h.typed id n hn

/-- A new node without content holds nothing and is held by nothing. -/
theorem Sound.create (h : f.Sound) (d : Descriptor) : (f.create d).2.Sound := by
  have hnode : ∀ j, (f.create d).2.node? j =
      if j = f.size then some (Node.blank d) else f.node? j :=
    node?_alloc f (Node.blank d)
  have hold : ∀ {j n}, f.node? j = some n → (f.create d).2.node? j = some n := fun {j n} hn => by
    rw [hnode, if_neg (Nat.ne_of_lt (lt_size_of_node? hn)), hn]
  have hparent : ∀ j, (f.create d).2.parent? j = f.parent? j := by
    intro j
    refine Option.ext fun p => ?_
    simp only [parent?_eq_some]
    constructor
    · rintro ⟨⟨n, hn, hp⟩, hc⟩
      rw [hnode] at hn
      split at hn
      · cases hn
        cases hp
      · refine ⟨⟨n, hn, hp⟩, ?_⟩
        have := h.links j n p hn hp
        simpa [contains, hnode, Nat.ne_of_lt this] using hc
    · rintro ⟨⟨n, hn, hp⟩, hc⟩
      obtain ⟨m, hm⟩ := exists_node?_of_contains hc
      exact ⟨⟨n, hold hn, hp⟩, contains_of_node? (hold hm)⟩
  have hcontents : ∀ j, (f.create d).2.contents j = f.contents j := by
    intro j
    unfold contents
    rw [hnode]
    split
    · next hj =>
      have : f.node? j = none := by
        cases hn : f.node? j with
        | none => rfl
        | some n => exact absurd hj (Nat.ne_of_lt (lt_size_of_node? hn))
      simp [this]
    · rfl
  refine ⟨wellContained_of_count (fun p c => ?_) (acyclic_mono (fun c p hb => ?_) h.acyclic) ?_, ?_⟩
  · rw [hcontents, hparent, h.count_contents]
  · simpa [Below, hparent] using hb
  · intro j n hn
    rw [hnode] at hn
    split at hn
    · cases hn
      exact Node.typed_blank d
    · exact h.typed j n hn
  · intro j n p hn hp
    rw [show (f.create d).2.size = f.size + 1 from size_alloc f _]
    rw [hnode] at hn
    split at hn
    · cases hn
      cases hp
    · exact Nat.lt_succ_of_lt (h.links j n p hn hp)

theorem Sound.setChild (h : f.Sound) (hg : f.setChild owner name child = .ok g) : g.Sound := by
  refine ⟨h.toWellContained.setChild hg, ?_⟩
  obtain ⟨n, i, hn, -, -, -, -, rfl⟩ := setChild_eq_ok hg
  exact (h.links.detach child).place (by simpa using contains_of_node? hn) i child

theorem Sound.addChild (h : f.Sound) (hg : f.addChild owner name child = .ok g) : g.Sound := by
  refine ⟨h.toWellContained.addChild hg, ?_⟩
  obtain ⟨n, i, hn, -, -, -, -, rfl⟩ := addChild_eq_ok hg
  exact (h.links.detach child).append (by simpa using contains_of_node? hn) i child

theorem Sound.detach (h : f.Sound) (id : NodeId) : (f.detach id).2.Sound :=
  ⟨h.toWellContained.detach id, h.links.detach id⟩

theorem Sound.clearChild {held : Option NodeId} (h : f.Sound)
    (hg : f.clearChild owner name = .ok (held, g)) : g.Sound := by
  obtain ⟨n, i, hn, hi, rfl⟩ := clearChild_eq_ok hg
  refine ⟨h.cleared hn (Node.singleChild_eq_ok hi), ?_⟩
  exact cleared_induction n i (h.links.update_of_parent fun _ => rfl) fun g q hg =>
    hg.setParent q (by simp)

/-- Content without nodes goes into a slot that is not for children. -/
theorem Sound.setSlot (h : f.Sound) (hn : f.node? id = some n) {p : Property} {s : Slot}
    (hp : n.descriptor.properties[i]? = some p) (hk : p.kind ≠ .child) (hs : p.Admits s)
    (hnodes : s.nodes = []) : (f.update id (·.setSlot i s)).Sound := by
  have ht := h.typed id n hn
  refine h.update (fun _ => rfl) (fun m x hm => ?_) fun m hm => ?_ <;>
    obtain rfl : n = m := Option.some.inj (hn.symm.trans hm)
  · have := n.count_contents_setSlot i s x (ht.lt_length hp)
    rw [ht.nodes_eq_nil hp hk, hnodes] at this
    simpa using this
  · exact ht.setSlot hp hs

/-- What is written under the name of an attribute or of a reference holds no node. -/
theorem Sound.write (h : f.Sound) {kind : PropertyKind} {s : Slot} (hkind : kind ≠ .child)
    (hs : ∀ p : Property, p.kind = kind → p.Admits s) (hnodes : s.nodes = [])
    (hg : (do
      let n ← f.get id
      let i ← n.declaredOf kind name
      return f.update id (·.setSlot i s)) = .ok g) : g.Sound := by
  simp only [bind, Except.bind] at hg
  split at hg
  · cases hg
  next n hn =>
  split at hg
  · cases hg
  next i hi =>
  obtain ⟨p, hp, hk⟩ := Node.declaredOf_eq_ok hi
  obtain rfl := Except.ok.inj hg
  exact h.setSlot (get_eq_ok hn) hp (hk ▸ hkind) (hs p hk) hnodes

theorem Sound.setProperty {v : Value} (h : f.Sound) (hg : f.setProperty id name v = .ok g) :
    g.Sound :=
  h.write (s := .value v) (by decide) (fun _ hk => hk) rfl hg

theorem Sound.setReference {r : Reference} (h : f.Sound)
    (hg : f.setReference id name r = .ok g) : g.Sound :=
  h.write (s := .reference r) (by decide) (fun _ hk => hk) rfl hg

theorem Sound.setOrigin (h : f.Sound) (id : NodeId) (origin : Option Origin) :
    (f.setOrigin id origin).Sound := by
  rcases setOrigin_cases f id origin with hsame | hset
  · rwa [hsame]
  · rw [hset]
    exact h.relabel (fun _ => rfl) (fun _ => rfl) fun _ => rfl

theorem Sound.collect (h : f.Sound) (roots : List NodeId) : (f.collect roots).Sound := by
  have hs := survives_collect f roots
  refine ⟨h.toWellContained.survives hs, fun id n p hn hp => ?_⟩
  rw [hs.size_eq]
  exact h.links id n p (hs.node?_eq hn) hp

end Forest

namespace World
variable {w : World}

theorem sound_create (h : w.forest.Sound) (family : Family) (k : Kind) :
    (w.create family k).2.forest.Sound := by
  unfold create register
  dsimp only
  cases (w.registry.register family k).1 with
  | error e => exact h
  | ok d => exact h.create d

theorem sound_createNamed (h : w.forest.Sound) (name : QualifiedName) :
    (w.createNamed name).2.forest.Sound := by
  unfold createNamed
  split
  · exact h
  · exact h.create _

theorem sound_createPlaceholder (h : w.forest.Sound) (sourceType : String) :
    (w.createPlaceholder sourceType).2.forest.Sound := by
  unfold createPlaceholder register
  dsimp only
  cases (w.registry.register .builtin .genericNode).1 with
  | error e => exact h
  | ok d => exact h.create _

theorem sound_setProperties {f g : Forest} (h : f.Sound) {id : NodeId}
    {rows : List (String × Value)} (hg : setProperties f id rows = .ok g) : g.Sound := by
  induction rows generalizing f with
  | nil => exact Except.ok.inj hg ▸ h
  | cons row rest ih =>
    simp only [setProperties, Except.bind] at hg
    split at hg
    · cases hg
    · next k hk => exact ih (h.setProperty hk) hg

theorem sound_createError (h : w.forest.Sound) (message sourceType : String) :
    (w.createError message sourceType).2.forest.Sound := by
  have hc := sound_create h .builtin .errorNode
  unfold createError
  split
  · next hw => exact congrArg Prod.snd hw ▸ hc
  · next hw =>
    have hw := congrArg Prod.snd hw
    dsimp only at hw
    rw [hw] at hc
    split
    · exact hc
    · next hf => exact sound_setProperties hc hf

end World

namespace Forest
variable {f : Forest}

/-- What may be done to a forest. Nodes are made from any registry, in whatever state it is. -/
inductive Edit where
  | create (d : Descriptor)
  | createOf (r : Registry) (family : Family) (k : Kind)
  | createNamed (r : Registry) (name : QualifiedName)
  | createPlaceholder (r : Registry) (sourceType : String)
  | createError (r : Registry) (message sourceType : String)
  | setChild (owner : NodeId) (name : String) (child : NodeId)
  | addChild (owner : NodeId) (name : String) (child : NodeId)
  | clearChild (owner : NodeId) (name : String)
  | detach (id : NodeId)
  | setProperty (id : NodeId) (name : String) (v : Value)
  | setReference (id : NodeId) (name : String) (r : Reference)
  | setLabel (id : NodeId) (label : Option String)
  | setPosition (id : NodeId) (pin : Option Position)
  | setOrigin (id : NodeId) (origin : Option Origin)
  | clearPosition (id : NodeId)
  /-- Only `roots` are still held from outside. -/
  | drop (roots : List NodeId)

/-- A refused edit leaves the forest as it is. -/
def accept (f : Forest) : Except ForestError Forest → Forest
  | .ok g => g
  | .error _ => f

def perform (f : Forest) : Edit → Forest
  | .create d => (f.create d).2
  | .createOf r family k => ((⟨r, f⟩ : World).create family k).2.forest
  | .createNamed r name => ((⟨r, f⟩ : World).createNamed name).2.forest
  | .createPlaceholder r sourceType => ((⟨r, f⟩ : World).createPlaceholder sourceType).2.forest
  | .createError r message sourceType =>
      ((⟨r, f⟩ : World).createError message sourceType).2.forest
  | .setChild owner name child => f.accept (f.setChild owner name child)
  | .addChild owner name child => f.accept (f.addChild owner name child)
  | .clearChild owner name => f.accept ((f.clearChild owner name).map (·.2))
  | .detach id => (f.detach id).2
  | .setProperty id name v => f.accept (f.setProperty id name v)
  | .setReference id name r => f.accept (f.setReference id name r)
  | .setLabel id label => f.setLabel id label
  | .setPosition id pin => f.setPosition id pin
  | .setOrigin id origin => f.setOrigin id origin
  | .clearPosition id => f.clearPosition id
  | .drop roots => f.collect roots

def run (f : Forest) (edits : List Edit) : Forest := edits.foldl perform f

theorem Sound.accept (h : f.Sound) {answer : Except ForestError Forest}
    (ha : ∀ g, answer = .ok g → g.Sound) : (f.accept answer).Sound := by
  cases answer with
  | ok g => exact ha g rfl
  | error e => exact h

/-- Every edit, done or refused, keeps the forest sound. -/
theorem Sound.perform (h : f.Sound) (e : Edit) : (f.perform e).Sound := by
  cases e with
  | create d => exact h.create d
  | createOf r family k => exact World.sound_create (w := ⟨r, f⟩) h family k
  | createNamed r name => exact World.sound_createNamed (w := ⟨r, f⟩) h name
  | createPlaceholder r sourceType =>
    exact World.sound_createPlaceholder (w := ⟨r, f⟩) h sourceType
  | createError r message sourceType =>
    exact World.sound_createError (w := ⟨r, f⟩) h message sourceType
  | setChild owner name child => exact h.accept fun g hg => h.setChild hg
  | addChild owner name child => exact h.accept fun g hg => h.addChild hg
  | clearChild owner name =>
    refine h.accept fun g hg => ?_
    cases hc : f.clearChild owner name with
    | error e => simp [hc, Except.map] at hg
    | ok answer =>
      obtain ⟨held, k⟩ := answer
      obtain rfl : k = g := by simpa [hc, Except.map] using hg
      exact h.clearChild hc
  | detach id => exact h.detach id
  | setProperty id name v => exact h.accept fun g hg => h.setProperty hg
  | setReference id name r => exact h.accept fun g hg => h.setReference hg
  | setLabel id label => exact h.relabel (fun _ => rfl) (fun _ => rfl) fun _ => rfl
  | setPosition id pin => exact h.relabel (fun _ => rfl) (fun _ => rfl) fun _ => rfl
  | setOrigin id origin => exact h.setOrigin id origin
  | clearPosition id => exact h.relabel (fun _ => rfl) (fun _ => rfl) fun _ => rfl
  | drop roots => exact h.collect roots

theorem Sound.run (h : f.Sound) (edits : List Edit) : (f.run edits).Sound := by
  induction edits generalizing f with
  | nil => exact h
  | cons e rest ih => exact ih (h.perform e)

/-- Whatever edits are done to the empty forest, successful or refused and with any nodes dropped
in between, containment is whole. -/
theorem wellContained_run (edits : List Edit) : (run {} edits).WellContained :=
  (sound_empty.run edits).toWellContained

end Forest

end Arbor
