import Arbor.Proofs.Transform.Keeping

/-!
Which factory serves a source, along a history of registrations and transformations. A source whose
own type has a factory goes to that one. Otherwise the first source of a type, since factories were
last added, goes along its own chain of types, and what it finds serves every later source of the
same type name, whatever the supertypes of that one are. All of it follows from what one step of the
engine does to the notes on factories: it adds a note on a new name and changes none.
-/
namespace Arbor

/-- What holds of the notes on factories in a workshop. -/
def Noted (P : Table String (Option String) → Prop) (w : Workshop) : Prop := P w.resolved

/-- Supplied steps that leave the notes on factories to the engine. -/
structure Factory.Discreet (f : Factory) : Prop where
  construct (P : Table String (Option String) → Prop) (supply : ChildSupply)
    (hsupply : ∀ name s, (supply name s).Keeps (Noted P)) (s : Source) :
    (f.construct supply s).Keeps (Noted P)
  finalize (P : Table String (Option String) → Prop) :
    ∀ g ∈ f.finalize, ∀ id, (g id).Keeps (Noted P)
  store (P : Table String (Option String) → Prop) {key : String} {w : Wiring}
    {put : NodeId → Portion NodeId → Work Failure Unit} (hw : f.wirings.get? key = some w)
    (hput : w.setter = some (.custom put)) (id : NodeId) (content : Portion NodeId) :
    (put id content).Keeps (Noted P)

theorem Factory.discreet_ofKind (sourceType : String) (family : Family) (k : Kind) :
    (ofKind sourceType family k).Discreet :=
  have hkeeps P := keeps_ofKind (P := Noted P) (fun _ _ h => h) sourceType family k
  ⟨fun P => (hkeeps P).construct, fun P => (hkeeps P).finalize, fun P => (hkeeps P).store⟩

namespace Transformer
open Work
variable {t : Transformer} {f : Factory} {P : Table String (Option String) → Prop}

/-- A note on a new type name, as some chain of types with that name gives it, keeps `P`. -/
def Noting (t : Transformer) (P : Table String (Option String) → Prop) : Prop :=
  ∀ notes name supertypes, P notes → notes.get? name = none →
    P (notes.insert name (t.firstServed (name :: supertypes)))

/-- Factories that leave the notes to the engine. -/
def Discreet (t : Transformer) : Prop :=
  ∀ name f, t.factories.get? name = some f → f.Discreet

/-- Notes that never lead away from the factory of a type that has one. -/
def OwnFirst (t : Transformer) (notes : Table String (Option String)) : Prop :=
  ∀ name key, notes.get? name = some key → t.factories.contains name → key = some name

theorem noting_ownFirst (t : Transformer) : t.Noting t.OwnFirst := by
  intro notes name supertypes h _ other key hkey hother
  simp only [Table.get?_insert] at hkey
  split at hkey
  · next heq =>
    obtain rfl := heq
    rw [← Option.some.inj hkey, firstServed, List.find?_cons_of_pos hother]
  · exact h other key hkey hother

theorem noting_remembered (t : Transformer) (name : String) (key : Option String) :
    t.Noting fun notes => notes.get? name = some key := by
  intro notes other supertypes h hnew
  have hne : other ≠ name := by
    rintro rfl
    rw [h] at hnew
    cases hnew
  rw [Table.get?_insert, if_neg hne]
  exact h

section Steps

theorem keeps_resolveFactory (hP : t.Noting P) (s : Source) :
    (t.resolveFactory s).Keeps (Noted P) := by
  intro w hw
  rw [resolveFactory, outcome_bind_ok outcome_get]
  dsimp only
  cases hkey : w.resolved.get? (w.world.forest.sourceType s) with
  | some key => exact hw
  | none =>
    rw [outcome_bind_ok outcome_set]
    exact hP _ _ _ hw hkey

theorem keeps_findWiring (nodeType : QualifiedName) (property : String) :
    (findWiring f nodeType property).Keeps (Noted P) := by
  intro w hw
  rw [findWiring, outcome_bind_ok outcome_get]
  dsimp only
  split
  · exact hw
  · rw [outcome_bind_ok outcome_set]
    exact hw

theorem upholds_noted (ht : t.Discreet) (hP : t.Noting P) : t.Upholds (Noted P) where
  world _ _ h := h
  issues _ _ h := h
  resolve := keeps_resolveFactory hP
  find _ := keeps_findWiring
  supplied {name f} hf :=
    have hdiscreet := ht name f hf
    ⟨hdiscreet.construct P, hdiscreet.finalize P, hdiscreet.store P⟩

theorem keeps_transformIntoNodes (ht : t.Discreet) (hP : t.Noting P) (depth : Nat)
    (raw : Portion Source) (parent : Option NodeId) :
    (t.transformIntoNodes depth raw parent).Keeps (Noted P) :=
  (upholds_noted ht hP).keeps_transformIntoNodes depth raw parent

end Steps

end Transformer

/-- What is done with a transformer and its world. -/
inductive Deed where
  | register (f : Factory)
  | transform (depth : Nat) (raw : Portion Source) (parent : Option NodeId)
  /-- Nodes and node types are made or changed from outside. -/
  | alter (change : World → World)

namespace Deed
open Transformer Work

/-- The transformer and the workshop behind a deed. A registration forgets what factories
decided. -/
def after : Deed → Transformer × Workshop → Transformer × Workshop
  | .register f, (t, w) => (t.addFactory f, { w with toNotes := w.toNotes.forgetFactories })
  | .transform depth raw parent, (t, w) =>
      (t, ((t.transformIntoNodes depth raw parent).outcome w).2)
  | .alter change, (t, w) => (t, { w with world := change w.world })

def afterAll (deeds : List Deed) (start : Transformer × Workshop) : Transformer × Workshop :=
  deeds.foldl (fun state deed => deed.after state) start

def registers : Deed → Option Factory
  | .register f => some f
  | _ => none

/-- Discreet factories, and notes that never lead away from the factory of a source's own type. -/
structure Orderly (state : Transformer × Workshop) : Prop where
  discreet : state.1.Discreet
  own : state.1.OwnFirst state.2.resolved

theorem orderly_after {state : Transformer × Workshop} (h : Orderly state) {deed : Deed}
    (hdeed : ∀ f ∈ deed.registers, f.Discreet) : Orderly (deed.after state) := by
  obtain ⟨t, w⟩ := state
  cases deed with
  | register f =>
    constructor
    · intro name g hg
      simp only [after, addFactory, Table.get?_insert] at hg
      split at hg
      · obtain rfl := Option.some.inj hg
        exact hdeed f rfl
      · exact h.discreet name g hg
    · intro name key hkey
      simp [after, Notes.forgetFactories] at hkey
  | transform depth raw parent =>
    have hkeeps := keeps_transformIntoNodes h.discreet (noting_ownFirst t) depth raw parent
    exact ⟨h.discreet, hkeeps w h.own⟩
  | alter change => exact ⟨h.discreet, h.own⟩

theorem orderly_afterAll {state : Transformer × Workshop} (h : Orderly state) {deeds : List Deed}
    (hdeeds : ∀ f ∈ deeds.filterMap registers, f.Discreet) : Orderly (afterAll deeds state) := by
  induction deeds generalizing state with
  | nil => exact h
  | cons deed rest ih =>
    have hfirst : Orderly (deed.after state) := by
      refine orderly_after h fun f hf => hdeeds f ?_
      exact List.mem_filterMap.mpr ⟨deed, by simp, hf⟩
    refine ih hfirst fun f hf => hdeeds f ?_
    rw [List.filterMap_cons]
    split
    · exact hf
    · exact List.mem_cons_of_mem _ hf

/-- Without a registration the transformer stays, and so does every note on a type name. -/
theorem remembered_afterAll {t : Transformer} (ht : t.Discreet) {w : Workshop} {name : String}
    {key : Option String} (hkey : w.resolved.get? name = some key) {deeds : List Deed}
    (hdeeds : deeds.filterMap registers = []) :
    (afterAll deeds (t, w)).1 = t ∧ (afterAll deeds (t, w)).2.resolved.get? name = some key := by
  induction deeds generalizing w with
  | nil => exact ⟨rfl, hkey⟩
  | cons deed rest ih =>
    cases deed with
    | register f => simp [registers] at hdeeds
    | transform depth raw parent =>
      refine ih ?_ hdeeds
      exact keeps_transformIntoNodes ht (noting_remembered t name key) depth raw parent w hkey
    | alter change => exact ih hkey hdeeds

end Deed

namespace Transformer
open Work Deed
variable {t : Transformer} {w : Workshop} {s : Source}

/-- After any history of registrations, transformations and changes of the world, a source whose own
type has a factory goes to it. A source of a type that is new since the last registration goes along
its own chain of types; what it finds then serves every source of the same type name, in place of
what that one's chain would find, until a factory is registered. -/
theorem resolveFactory_afterAll (config : TransformerConfig) (hooks : Hooks) (deeds : List Deed)
    (hdeeds : ∀ f ∈ deeds.filterMap registers, f.Discreet) (s : Source) :
    let state := afterAll deeds ({ config, hooks }, {})
    let forest := state.2.world.forest
    let found := (state.1.resolveFactory s).outcome state.2
    let own := (state.1.firstServed (forest.sourceChain s)).bind state.1.factories.get?
    (state.1.factories.contains (forest.sourceType s) → found.1 = .ok own) ∧
      (state.2.resolved.get? (forest.sourceType s) = none →
        found.1 = .ok own ∧
        ∀ later : List Deed, later.filterMap registers = [] →
          let next := afterAll later (state.1, found.2)
          ∀ s', next.2.world.forest.sourceType s' = forest.sourceType s →
            (next.1.resolveFactory s').outcome next.2 = (.ok own, next.2)) := by
  intro state forest found own
  have hstart : Orderly ({ config, hooks }, ({} : Workshop)) :=
    ⟨fun name f h => by simp at h, fun name key h => by simp at h⟩
  have horderly : Orderly state := orderly_afterAll hstart hdeeds
  have hnew : state.2.resolved.get? (forest.sourceType s) = none → found.1 = .ok own :=
    fun h => congrArg Prod.fst (resolveFactory_of_new h)
  constructor
  · intro hserved
    cases hkey : state.2.resolved.get? (forest.sourceType s) with
    | none => exact hnew hkey
    | some key =>
      obtain rfl := horderly.own _ _ hkey hserved
      have hown : state.1.firstServed (forest.sourceChain s) = some (forest.sourceType s) :=
        List.find?_cons_of_pos hserved
      show ((state.1.resolveFactory s).outcome state.2).1 = .ok own
      rw [resolveFactory_of_noted hkey]
      show Except.ok _ = Except.ok ((state.1.firstServed (forest.sourceChain s)).bind _)
      rw [hown]
  · intro hunknown
    refine ⟨hnew hunknown, ?_⟩
    intro later hlater next s' hs'
    have hnoted : found.2.resolved.get? (forest.sourceType s) =
        some (state.1.firstServed (forest.sourceChain s)) := by
      show ((state.1.resolveFactory s).outcome state.2).2.resolved.get? _ = _
      rw [resolveFactory_of_new hunknown, Table.get?_insert]
      exact if_pos rfl
    obtain ⟨hsame, hkept⟩ := remembered_afterAll horderly.discreet hnoted hlater
    have hanswer := resolveFactory_of_noted (t := next.1) (s := s') (hs' ▸ hkept)
    rw [hanswer]
    show (Except.ok (_ : Option Factory), next.2) = _
    rw [hsame]

/-- A factory for `Base`, and two sources of one type name; only one of them is a `Base`. -/
def baseFactory : Factory := .ofKind "Base" .builtin .genericNode
def plainSource : Source := .record { typeName := "X" }
def derivedSource : Source := .record { typeName := "X", supertypes := ["Base"] }

theorem resolveFactory_derivedSource :
    let state := afterAll [.register baseFactory] ({}, {})
    ((state.1.resolveFactory derivedSource).outcome state.2).1 = .ok (some baseFactory) := by
  have hdiscreet : ∀ f ∈ [Deed.register baseFactory].filterMap registers, f.Discreet := by
    intro f hf
    obtain rfl : f = baseFactory := by simpa [registers] using hf
    exact Factory.discreet_ofKind _ _ _
  exact ((resolveFactory_afterAll {} {} [.register baseFactory] hdiscreet derivedSource).2 rfl).1

/-- Behind the first source, whose type has no factory, the second one has none either: it becomes a
placeholder, although `Base` in its chain has a factory. -/
theorem resolveFactory_derivedSource_behind_plainSource :
    let state := afterAll [.register baseFactory, .transform 1 (.one plainSource) none] ({}, {})
    let made := (state.1.transformIntoNodes 1 (.one derivedSource) none).outcome state.2
    state.1.firstServed (state.2.world.forest.sourceChain derivedSource) = some "Base" ∧
      ((state.1.resolveFactory derivedSource).outcome state.2).1 = .ok none ∧
      made.1 = .ok [1] ∧
      (made.2.world.forest.node? 1).map Node.typeName = some "sylva.unmapped.X" := by
  refine ⟨?_, ?_, ?_, ?_⟩
  · decide
  · rfl
  · rfl
  · decide

end Transformer

end Arbor
