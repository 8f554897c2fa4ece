import Arbor.Proofs.Transform.Keeping
import Arbor.Proofs.Transform.Plainness
import Mathlib.Data.List.Induction

/-!
Which wiring serves a property, for a factory that was set up by any calls. What registrations and
transformations have noted before never changes it, as a note on a wiring says what the factory
would answer anyhow. A wiring for nodes of one type stands under the printed name of the type, and
types with different names may print alike. So the wiring that serves is the last one whose key
prints like the type and the property; it is one for exactly this type and property if no other call
has such a key.
-/
namespace Arbor

/-- A call that gives a factory one more wiring, for nodes of one type only or for all. -/
structure WiringCall where
  scope : Option QualifiedName := none
  name : String
  get : Forest → Source → Except Failure (Portion Source)

namespace WiringCall
variable {calls : List WiringCall} {nodeType : QualifiedName} {property : String}

def wiring (c : WiringCall) : Wiring := ⟨c.name, c.get, some .schema⟩

def key (c : WiringCall) : String :=
  match c.scope with
  | none => c.name
  | some nodeType => Factory.scopedKey nodeType c.name

def apply (f : Factory) (c : WiringCall) : Factory :=
  match c.scope with
  | none => f.withChild c.name c.get
  | some nodeType => f.withScopedChild nodeType c.name c.get

/-- The wiring of the last call that satisfies `p`. -/
def last? (calls : List WiringCall) (p : WiringCall → Bool) : Option Wiring :=
  (calls.filter p).getLast?.map wiring

theorem last?_congr {p q : WiringCall → Bool} (h : ∀ c ∈ calls, p c = q c) :
    last? calls p = last? calls q := by
  rw [last?, last?, List.filter_congr h]

theorem key_of_scope_eq_none {c : WiringCall} (h : c.scope = none) : c.key = c.name := by
  rw [key, h]

theorem key_of_scope_eq_some {c : WiringCall} (h : c.scope = some nodeType) :
    c.key = Factory.scopedKey nodeType c.name := by
  rw [key, h]

/-- Only calls for this property, and for this node type or for all, have keys that print like
theirs. -/
structure Apart (calls : List WiringCall) (nodeType : QualifiedName) (property : String) :
    Prop where
  own : ∀ c ∈ calls, c.key = Factory.scopedKey nodeType property →
    c.scope = some nodeType ∧ c.name = property
  general : ∀ c ∈ calls, c.key = property → c.scope = none

theorem Apart.last?_own (h : Apart calls nodeType property) :
    last? calls (·.key = Factory.scopedKey nodeType property) =
      last? calls fun c => c.scope = some nodeType ∧ c.name = property := by
  refine last?_congr fun c hc => decide_eq_decide.mpr ⟨h.own c hc, ?_⟩
  rintro ⟨hscope, hname⟩
  rw [key_of_scope_eq_some hscope, hname]

theorem Apart.last?_general (h : Apart calls nodeType property) :
    last? calls (·.key = property) = last? calls fun c => c.scope = none ∧ c.name = property := by
  refine last?_congr fun c hc => decide_eq_decide.mpr ⟨fun hkey => ?_, ?_⟩
  · have hscope := h.general c hc hkey
    exact ⟨hscope, (key_of_scope_eq_none hscope).symm.trans hkey⟩
  · rintro ⟨hscope, hname⟩
    rw [key_of_scope_eq_none hscope, hname]

end WiringCall

/-- Names of node types without a point are told apart by what is printed. -/
theorem QualifiedName.display_inj {a b : QualifiedName} (ha : '.' ∉ a.name.toList)
    (hb : '.' ∉ b.name.toList) (h : a.display = b.display) : a = b := by
  obtain ⟨p, n⟩ := a
  obtain ⟨q, m⟩ := b
  rw [display, display] at h
  split at h <;> split at h
  · next hp hq =>
    have hpackage : p = q := by
      rw [show p = "" by simpa using hp, show q = "" by simpa using hq]
    exact congrArg₂ mk hpackage h
  · rw [h] at ha
    simp at ha
  · rw [← h] at hb
    simp at hb
  · have htext := congrArg String.toList h
    simp only [String.toList_append] at htext
    have hmarked : p.toList ++ '.' :: n.toList = q.toList ++ '.' :: m.toList := by simpa using htext
    obtain ⟨hpackage, hname⟩ := append_mark_inj ha hb hmarked
    exact congrArg₂ mk (String.toList_inj.mp hpackage) (String.toList_inj.mp hname)

/-- Keys are told apart where no type name has a point and no property name the mark. -/
theorem WiringCall.apart_of_plain {calls : List WiringCall} {nodeType : QualifiedName}
    {property : String} (hnames : ∀ c ∈ calls, '#' ∉ c.name.toList)
    (hscopes : ∀ c ∈ calls, ∀ scope ∈ c.scope, '.' ∉ scope.name.toList)
    (htype : '.' ∉ nodeType.name.toList) (hproperty : '#' ∉ property.toList) :
    Apart calls nodeType property where
  own c hc hkey := by
    have htext := congrArg String.toList hkey
    rw [Factory.toList_scopedKey] at htext
    cases hscope : c.scope with
    | none =>
      have hplain := hnames c hc
      rw [← key_of_scope_eq_none hscope, htext] at hplain
      simp at hplain
    | some scope =>
      rw [key_of_scope_eq_some hscope, Factory.toList_scopedKey] at htext
      obtain ⟨hdisplay, hname⟩ := append_mark_inj (hnames c hc) hproperty htext
      have hsame := QualifiedName.display_inj (hscopes c hc scope hscope) htype
        (String.toList_inj.mp hdisplay)
      exact ⟨congrArg some hsame, String.toList_inj.mp hname⟩
  general c hc hkey := by
    cases hscope : c.scope with
    | none => rfl
    | some scope =>
      rw [← hkey, key_of_scope_eq_some hscope, Factory.toList_scopedKey] at hproperty
      simp at hproperty

namespace Factory
variable {base : Factory}

/-- The factory after calls, the first one first. -/
def wiredBy (base : Factory) (calls : List WiringCall) : Factory :=
  calls.foldl WiringCall.apply base

theorem wirings_apply (f : Factory) (c : WiringCall) :
    (c.apply f).wirings = f.wirings.insert c.key c.wiring := by
  rw [WiringCall.apply, WiringCall.key]
  cases c.scope <;> rfl

/-- Under a key stands the wiring of the last call with this key. -/
theorem get?_wirings_wiredBy (hbase : base.wirings = ∅) (calls : List WiringCall) (key : String) :
    (base.wiredBy calls).wirings.get? key = WiringCall.last? calls (·.key = key) := by
  induction calls using List.reverseRecOn with
  | nil => simp [wiredBy, hbase, WiringCall.last?]
  | append_singleton calls c ih =>
    have hstep : base.wiredBy (calls ++ [c]) = c.apply (base.wiredBy calls) := by
      rw [wiredBy, List.foldl_append]
      rfl
    rw [hstep, wirings_apply, Table.get?_insert, ih, WiringCall.last?, WiringCall.last?,
      List.filter_append]
    by_cases hkey : c.key = key <;> simp [hkey]

theorem Keeps.apply {f : Factory} {P : Workshop → Prop} (h : f.Keeps P) (c : WiringCall) :
    (c.apply f).Keeps P := by
  refine ⟨?_, ?_, fun {key w put} hw hput => ?_⟩
  · rw [show (c.apply f).construct = f.construct by rw [WiringCall.apply]; cases c.scope <;> rfl]
    exact h.construct
  · rw [show (c.apply f).finalize = f.finalize by rw [WiringCall.apply]; cases c.scope <;> rfl]
    exact h.finalize
  · rw [wirings_apply, Table.get?_insert] at hw
    split at hw
    · obtain rfl := Option.some.inj hw
      cases hput
    · exact h.store hw hput

/-- Calls supply no steps. -/
theorem Keeps.wiredBy {P : Workshop → Prop} (h : base.Keeps P) (calls : List WiringCall) :
    (base.wiredBy calls).Keeps P := by
  induction calls generalizing base with
  | nil => exact h
  | cons c rest ih => exact ih (h.apply c)

end Factory

namespace Transformer
open Work
variable {t : Transformer} {w : Workshop}

/-- What registrations, the steps of transformations, and changes of the world and of the issues
from outside lead to, from a new transformer on. -/
inductive Reached : Transformer → Workshop → Prop
  | start (config : TransformerConfig) (hooks : Hooks) (world : World) :
      Reached { config, hooks } { world }
  | register {t : Transformer} {w : Workshop} (h : Reached t w) (f : Factory) :
      Reached (t.addFactory f) { w with toNotes := w.toNotes.forgetFactories }
  | resolve {t : Transformer} {w : Workshop} (h : Reached t w) (s : Source) :
      Reached t ((t.resolveFactory s).outcome w).2
  | find {t : Transformer} {w : Workshop} (h : Reached t w) {name : String} {f : Factory}
      (hf : t.factories.get? name = some f) (nodeType : QualifiedName) (property : String) :
      Reached t ((findWiring f nodeType property).outcome w).2
  | alter {t : Transformer} {w : Workshop} (h : Reached t w) (world : World)
      (issues : List Issue) : Reached t { w with world, issues }

/-- Transformations lead on, if the steps that are supplied do. -/
theorem upholds_reached
    (hsupplied : ∀ name f, t.factories.get? name = some f → f.Keeps (Reached t)) :
    t.Upholds (Reached t) where
  world w world h := h.alter world w.issues
  issues w issues h := h.alter w.world issues
  resolve s _ h := h.resolve s
  find hf nodeType property _ h := h.find hf nodeType property
  supplied hf := hsupplied _ _ hf

theorem wired_resolveFactory (t : Transformer) (s : Source) (w : Workshop) :
    ((t.resolveFactory s).outcome w).2.wired = w.wired := by
  rw [resolveFactory, outcome_bind_ok outcome_get]
  dsimp only
  split
  · rfl
  · rw [outcome_bind_ok outcome_set]
    rfl

/-- Each factory stands under its own source type, and the notes on wirings lead where the factories
lead. -/
theorem Reached.knowsWirings (h : Reached t w) :
    (∀ name f, t.factories.get? name = some f → f.sourceType = name) ∧
      t.KnowsWirings w.toNotes := by
  induction h with
  | start config hooks world => exact ⟨by simp, fun _ _ _ _ h => by simp at h⟩
  | register _ f ih =>
    refine ⟨fun name g hg => ?_, fun _ _ _ _ h => by simp [Notes.forgetFactories] at h⟩
    rw [addFactory, Table.get?_insert] at hg
    split at hg
    · next heq => exact Option.some.inj hg ▸ heq
    · exact ih.1 name g hg
  | resolve _ s ih =>
    refine ⟨ih.1, fun _ _ _ _ h hg => ih.2 ?_ hg⟩
    rwa [wired_resolveFactory] at h
  | find _ hf nodeType property ih =>
    have hown := ih.1 _ _ hf
    obtain ⟨wired, hfind, hknows⟩ := outcome_findWiring_of_knows ih.2 (hown ▸ hf) nodeType property
    rw [hfind]
    exact ⟨ih.1, hknows⟩
  | alter _ world issues ih => exact ih

theorem wiringOf_eq (f : Factory) (nodeType : QualifiedName) (property : String) :
    wiringOf f nodeType property =
      (f.wirings.get? (Factory.scopedKey nodeType property)).or (f.wirings.get? property) := by
  rw [wiringOf, wiringKey]
  cases hscoped : f.wirings.get? (Factory.scopedKey nodeType property) with
  | some v => simp [Table.contains, hscoped]
  | none => cases hplain : f.wirings.get? property <;> simp [Table.contains, hscoped, hplain]

/-- Whatever was done before, a property gets the wiring of the last call whose key prints like the
node type and the property, else that of the last call whose key prints like the property. Where no
other call prints alike, these are the last call for exactly this type and this property, and the
last one for this property of any node. The states for which this holds are never left: each
transformation leads from one of them to another, if the steps that the factories supply do. -/
theorem findWiring_exact (hstate : Reached t w) {base : Factory} (hbase : base.wirings = ∅)
    (calls : List WiringCall)
    (hf : t.factories.get? base.sourceType = some (base.wiredBy calls)) :
    (∀ nodeType property,
      ((findWiring (base.wiredBy calls) nodeType property).outcome w).1 =
          .ok ((WiringCall.last? calls (·.key = Factory.scopedKey nodeType property)).or
            (WiringCall.last? calls (·.key = property))) ∧
        (WiringCall.Apart calls nodeType property →
          ((findWiring (base.wiredBy calls) nodeType property).outcome w).1 =
            .ok ((WiringCall.last? calls fun c => c.scope = some nodeType ∧ c.name = property).or
              (WiringCall.last? calls fun c => c.scope = none ∧ c.name = property)))) ∧
      ((∀ name g, t.factories.get? name = some g → g.Keeps (Reached t)) →
        ∀ depth raw parent, Reached t ((t.transformIntoNodes depth raw parent).outcome w).2) := by
  constructor
  · intro nodeType property
    obtain ⟨hown, hknows⟩ := hstate.knowsWirings
    obtain ⟨wired, hfind, -⟩ :=
      outcome_findWiring_of_knows hknows (hown _ _ hf ▸ hf) nodeType property
    have hprinted : ((findWiring (base.wiredBy calls) nodeType property).outcome w).1 =
        .ok ((WiringCall.last? calls (·.key = Factory.scopedKey nodeType property)).or
          (WiringCall.last? calls (·.key = property))) := by
      rw [hfind, wiringOf_eq, Factory.get?_wirings_wiredBy hbase,
        Factory.get?_wirings_wiredBy hbase]
    refine ⟨hprinted, fun hapart => ?_⟩
    rw [hprinted, hapart.last?_own, hapart.last?_general]
  · intro hsupplied depth raw parent
    exact (upholds_reached hsupplied).keeps_transformIntoNodes depth raw parent w hstate

/-- Calls for all types, and for one. -/
def generalCall : WiringCall := { name := "kids", get := fun _ _ => .ok .absent }
def ownCall : WiringCall := { generalCall with scope := some ⟨"a", "C"⟩ }

/-- Behind a transformation the type that has a wiring of its own still gets it. -/
theorem findWiring_ownCall :
    let f := (Factory.ofKind "X" .builtin .genericNode).wiredBy [ownCall, generalCall]
    let t := ({} : Transformer).addFactory f
    let w := ((t.transformIntoNodes 1 (.one (.record { typeName := "X" })) none).outcome {}).2
    ((findWiring f ⟨"a", "C"⟩ "kids").outcome w).1 = .ok (some ownCall.wiring) ∧
      ((findWiring f ⟨"b", "C"⟩ "kids").outcome w).1 = .ok (some generalCall.wiring) := by
  intro f t w
  have hkept : f.Keeps (Reached t) :=
    (Factory.keeps_ofKind (fun w world h => h.alter world w.issues) _ _ _).wiredBy _
  have hsupplied : ∀ name g, t.factories.get? name = some g → g.Keeps (Reached t) := by
    intro name g hg
    simp only [t, addFactory, Table.get?_insert] at hg
    split at hg
    · exact Option.some.inj hg ▸ hkept
    · simp at hg
  have hstate : Reached t w :=
    (upholds_reached hsupplied).keeps_transformIntoNodes 1 _ none _
      ((Reached.start {} {} {}).register f)
  have hbase : (Factory.ofKind "X" .builtin .genericNode).wirings = ∅ := rfl
  have hfound := (findWiring_exact hstate hbase [ownCall, generalCall] rfl).1
  have hapart (package : String) :
      WiringCall.Apart [ownCall, generalCall] ⟨package, "C"⟩ "kids" :=
    WiringCall.apart_of_plain (by decide) (by decide) (show '.' ∉ "C".toList by decide) (by decide)
  exact ⟨(hfound ⟨"a", "C"⟩ "kids").2 (hapart "a"), (hfound ⟨"b", "C"⟩ "kids").2 (hapart "b")⟩

/-- A wiring that is only for `C` in the package `a.b` serves `b.C` in the package `a`, which prints
alike, although no call is for that type or for all. -/
theorem findWiring_foreign :
    let c : WiringCall := { generalCall with scope := some ⟨"a.b", "C"⟩ }
    let f := (Factory.ofKind "X" .builtin .genericNode).wiredBy [c]
    let nodeType : QualifiedName := ⟨"a", "b.C"⟩
    Reached (({} : Transformer).addFactory f) {} ∧
      c.scope ≠ some nodeType ∧
      ((WiringCall.last? [c] fun c => c.scope = some nodeType ∧ c.name = "kids").or
        (WiringCall.last? [c] fun c => c.scope = none ∧ c.name = "kids")) = none ∧
      ((findWiring f nodeType "kids").outcome {}).1 = .ok (some c.wiring) := by
  intro c f nodeType
  exact ⟨(Reached.start {} {} {}).register f, by decide, rfl, rfl⟩

end Transformer

end Arbor
