import Arbor.Proofs.Forest.Adoption
import Arbor.Transform.Engine

/-!
What work answers and which workshop it leaves, step by step, and the notes of a transformer: they
never lead away from the factory of a source type that has one, nor from the wiring that the
factory has for a property.
-/
namespace Arbor

/-- The workshop with another registry and forest. -/
def Workshop.withWorld (w : Workshop) (r : Registry) (f : Forest) : Workshop :=
  { w with world := ⟨r, f⟩ }

namespace Work
variable {ε ε' α β : Type} {w w' : Workshop}

/-- The answer of work and the workshop behind it. -/
def outcome (x : Work ε α) (w : Workshop) : Except ε α × Workshop := x.run.run w

@[simp] theorem outcome_pure (a : α) : (pure a : Work ε α).outcome w = (.ok a, w) := rfl

@[simp] theorem outcome_get : (get : Work ε Workshop).outcome w = (.ok w, w) := rfl

@[simp] theorem outcome_set : (set w' : Work ε PUnit).outcome w = (.ok ⟨⟩, w') := rfl

@[simp] theorem outcome_forest : (forest : Work ε Forest).outcome w = (.ok w.world.forest, w) := rfl

@[simp] theorem outcome_setForest (f : Forest) :
    (setForest f : Work ε Unit).outcome w = (.ok (), w.withWorld w.world.registry f) := rfl

@[simp] theorem outcome_modifyForest (change : Forest → Forest) :
    (modifyForest change : Work ε Unit).outcome w =
      (.ok (), w.withWorld w.world.registry (change w.world.forest)) := rfl

theorem outcome_bind_ok {x : Work ε α} {a : α} (h : x.outcome w = (.ok a, w'))
    (g : α → Work ε β) : (x >>= g).outcome w = (g a).outcome w' := by
  unfold outcome at h ⊢
  simp only [ExceptT.run_bind, StateT.run_bind, h]
  rfl

theorem outcome_bind_error {x : Work ε α} {e : ε} (h : x.outcome w = (.error e, w'))
    (g : α → Work ε β) : (x >>= g).outcome w = (.error e, w') := by
  unfold outcome at h ⊢
  simp only [ExceptT.run_bind, StateT.run_bind, h]
  rfl

theorem outcome_bind_congr {x y : Work ε α} (h : x.outcome w = y.outcome w') (g : α → Work ε β) :
    (x >>= g).outcome w = (y >>= g).outcome w' := by
  cases hy : y.outcome w' with
  | mk answer w₁ =>
    rw [hy] at h
    cases answer with
    | ok a => rw [outcome_bind_ok h, outcome_bind_ok hy]
    | error e => rw [outcome_bind_error h, outcome_bind_error hy]

theorem outcome_edit {change : Forest → Except ForestError Forest} {f : Forest}
    (h : change w.world.forest = .ok f) :
    (edit change).outcome w = (.ok (), w.withWorld w.world.registry f) := by
  rw [edit, outcome_bind_ok outcome_forest, h]
  rfl

@[simp] theorem outcome_withWorld (step : World → Except ε α × World) :
    (withWorld step).outcome w =
      ((step w.world).1, { w with world := (step w.world).2 }) := by
  rw [withWorld, outcome_bind_ok outcome_get, outcome_bind_ok outcome_set]
  cases (step w.world).1 <;> rfl

@[simp] theorem outcome_explain (tell : ε → ε') (x : Work ε α) :
    (explain tell x).outcome w = ((x.outcome w).1.mapError tell, (x.outcome w).2) := rfl

@[simp] theorem outcome_attempt (x : Work ε α) :
    (attempt x : Work ε' (Except ε α)).outcome w = (.ok (x.outcome w).1, (x.outcome w).2) := rfl

theorem outcome_change {step : Forest → Except ForestError Forest} {f : Forest}
    (h : step w.world.forest = .ok f) :
    (change step).outcome w = (.ok (), w.withWorld w.world.registry f) := by
  rw [change, outcome_explain, outcome_edit h]
  rfl

theorem outcome_change_error {step : Forest → Except ForestError Forest} {e : ForestError}
    (h : step w.world.forest = .error e) :
    (change step).outcome w = (.error (.ofForest e), w) := by
  rw [change, outcome_explain, edit, outcome_bind_ok outcome_forest, h]
  rfl

section Keeping
variable {P : Workshop → Prop}

/-- Work that keeps `P`, whether it fails or not. -/
def Keeps (P : Workshop → Prop) (x : Work ε α) : Prop := ∀ w, P w → P (x.outcome w).2

/-- What holds of a workshop whatever its forest is. -/
def FreeOfForest (P : Workshop → Prop) : Prop := ∀ w f, P w → P (w.withWorld w.world.registry f)

theorem keeps_pure (a : α) : (pure a : Work ε α).Keeps P := fun _ h => h

theorem keeps_throw (e : ε) : (throw e : Work ε α).Keeps P := fun _ h => h

theorem keeps_forest : (forest : Work ε Forest).Keeps P := fun _ h => h

/-- Work in steps keeps what each step keeps; a later step may use what the answer is. -/
theorem keeps_bind {x : Work ε α} {g : α → Work ε β} (hx : x.Keeps P)
    (hg : ∀ a w w', x.outcome w = (.ok a, w') → (g a).Keeps P) : (x >>= g).Keeps P := by
  intro w hw
  have hfirst := hx w hw
  cases h : x.outcome w with
  | mk answer w' =>
    rw [h] at hfirst
    cases answer with
    | error e =>
      rw [outcome_bind_error h]
      exact hfirst
    | ok a =>
      rw [outcome_bind_ok h]
      exact hg a w w' h w' hfirst

theorem keeps_explain {x : Work ε α} (hx : x.Keeps P) (tell : ε → ε') :
    (explain tell x).Keeps P := hx

theorem keeps_attempt {x : Work ε α} (hx : x.Keeps P) :
    (attempt x : Work ε' (Except ε α)).Keeps P := hx

section Forest
variable (hP : FreeOfForest P)
include hP

theorem keeps_setForest (f : Forest) : (setForest f : Work ε Unit).Keeps P := fun w => hP w f

theorem keeps_modifyForest (change : Forest → Forest) :
    (modifyForest change : Work ε Unit).Keeps P := fun w => hP w _

theorem keeps_edit (step : Forest → Except ForestError Forest) : (edit step).Keeps P := by
  refine keeps_bind keeps_forest fun f _ _ _ => ?_
  cases step f with
  | ok g => exact keeps_setForest hP g
  | error e => exact keeps_throw e

theorem keeps_change (step : Forest → Except ForestError Forest) : (change step).Keeps P :=
  keeps_explain (keeps_edit hP step) _

theorem keeps_addChildren (owner : NodeId) (property : String) (cs : List NodeId) :
    (addChildren owner property cs).Keeps P := by
  induction cs with
  | nil => exact keeps_pure ()
  | cons c rest ih => exact keeps_bind (keeps_change hP _) fun _ _ _ _ => ih

end Forest

end Keeping

end Work

namespace Transformer
variable {t : Transformer} {f : Factory} {w : Workshop}

/-- Notes that lead where the factories lead, without an issue so far. -/
structure Agrees (t : Transformer) (notes : Notes) : Prop where
  quiet : notes.issues = []
  resolved {name key} : notes.resolved.get? name = some key → t.factories.contains name →
    key = some name
  wired {f : Factory} {nodeType : QualifiedName} {property key} :
    notes.wired.get? (f.sourceType, nodeType.display, property) = some key →
    t.factories.get? f.sourceType = some f → key = wiringKey f nodeType property

/-- The wiring that a factory has for a property of a node type. -/
def wiringOf (f : Factory) (nodeType : QualifiedName) (property : String) : Option Wiring :=
  (wiringKey f nodeType property).bind f.wirings.get?

theorem keeps_storeBySchema {P : Workshop → Prop} (hP : Work.FreeOfForest P) (name : String)
    (owner : NodeId) (content : Portion NodeId) : (storeBySchema name owner content).Keeps P := by
  refine Work.keeps_bind Work.keeps_forest fun forest _ _ _ => ?_
  cases content with
  | absent => exact Work.keeps_pure ()
  | one c =>
    dsimp only
    split
    · exact Work.keeps_addChildren hP _ _ _
    · exact Work.keeps_change hP _
  | many cs =>
    dsimp only
    split
    · exact Work.keeps_addChildren hP _ _ _
    · split
      · exact Work.keeps_pure ()
      · exact Work.keeps_change hP _
      · exact Work.keeps_throw _

theorem outcome_forNodes_singleton {step : NodeId → Work TransformError Unit} {id : NodeId} :
    (forNodes step [id]).outcome w = (step id).outcome w := by
  rw [forNodes]
  cases h : (step id).outcome w with
  | mk answer w' =>
    cases answer with
    | ok _ => rw [Work.outcome_bind_ok h]; rfl
    | error e => rw [Work.outcome_bind_error h]

theorem keeps_forNodes {P : Workshop → Prop} {step : NodeId → Work TransformError Unit}
    (hstep : ∀ id, (step id).Keeps P) (ids : List NodeId) : (forNodes step ids).Keeps P := by
  induction ids with
  | nil => exact Work.keeps_pure ()
  | cons id rest ih => exact Work.keeps_bind (hstep id) fun _ _ _ _ => ih

/-- What the slots of an error node hold: the whole failure, its root cause and the source type. -/
def errorData (sourceType : String) (cause : Failure) : List Slot :=
  [.value (.string cause.render), .value (.string cause.rootCause), .value (.string sourceType)]

/-- The error node for a failure is a new node, which then gets its origin and its link. -/
theorem outcome_makeError_alloc {d : Descriptor} {r : Registry}
    (hregister : w.world.registry.register .builtin .errorNode = (.ok d, r))
    (hdeclared : Kind.errorNode.properties <+: d.properties)
    (hnames : (d.properties.map (·.name)).Nodup) (s : Source) (parent : Option NodeId)
    (cause : Failure) :
    let look := Node.starting d (errorData (w.world.forest.sourceType s) cause)
    (t.makeError s parent cause).outcome w =
        (.ok w.world.forest.size, w.withWorld r
          (((w.world.forest.alloc look).2.setOrigin w.world.forest.size
            (t.hooks.origin s)).setParent w.world.forest.size parent)) ∧
      look.Fresh := by
  intro look
  obtain ⟨hcreate, hfresh⟩ := Forest.createError_eq hregister hdeclared hnames cause.render
    (w.world.forest.sourceType s)
  obtain ⟨hcause, hfresh'⟩ := Forest.setCause_eq w.world.forest hdeclared hfresh cause.rootCause
  refine ⟨?_, hfresh'⟩
  have hmade : (Work.explain TransformError.forest (Work.withWorld (·.createError cause.render
      (w.world.forest.sourceType s)))).outcome w = (.ok w.world.forest.size, w.withWorld r
        (w.world.forest.alloc (.starting d [.value (.string cause.render), .absent,
          .value (.string (w.world.forest.sourceType s))])).2) := by
    rw [Work.outcome_explain, Work.outcome_withWorld, hcreate]
    rfl
  rw [makeError, Work.outcome_bind_ok Work.outcome_forest, Work.outcome_bind_ok hmade]
  have hset : (Work.explain TransformError.forest (Work.edit
      (·.setCause w.world.forest.size cause.rootCause))).outcome (w.withWorld r
        (w.world.forest.alloc (.starting d [.value (.string cause.render), .absent,
          .value (.string (w.world.forest.sourceType s))])).2) =
        (.ok (), w.withWorld r (w.world.forest.alloc look).2) := by
    rw [Work.outcome_explain, Work.outcome_edit hcause]
    rfl
  rw [Work.outcome_bind_ok hset, Work.outcome_bind_ok (Work.outcome_modifyForest _)]
  rfl

theorem agrees_blank : t.Agrees {} where
  quiet := rfl
  resolved h := by simp at h
  wired h := by simp at h

theorem resolveFactory_of_noted {s : Source} {key : Option String}
    (hkey : w.resolved.get? (w.world.forest.sourceType s) = some key) :
    (t.resolveFactory s).outcome w = (.ok (key.bind t.factories.get?), w) := by
  rw [resolveFactory, Work.outcome_bind_ok Work.outcome_get]
  simp only [hkey]
  rfl

theorem resolveFactory_of_new {s : Source}
    (hnew : w.resolved.get? (w.world.forest.sourceType s) = none) :
    (t.resolveFactory s).outcome w =
      (.ok ((t.firstServed (w.world.forest.sourceChain s)).bind t.factories.get?),
        { w with resolved := w.resolved.insert (w.world.forest.sourceType s)
                  (t.firstServed (w.world.forest.sourceChain s)) }) := by
  rw [resolveFactory, Work.outcome_bind_ok Work.outcome_get]
  simp only [hnew]
  rfl

/-- Where a note on the source's type is the answer of its chain of types, the answer is that of the
chain. At most this note is new afterwards. -/
theorem outcome_resolveFactory_of_known {s : Source}
    (hknown : ∀ key, w.resolved.get? (w.world.forest.sourceType s) = some key →
      key = t.firstServed (w.world.forest.sourceChain s)) :
    ∃ resolved, (t.resolveFactory s).outcome w =
        (.ok ((t.firstServed (w.world.forest.sourceChain s)).bind t.factories.get?),
          { w with resolved }) ∧
      ∀ name key, resolved.get? name = some key → w.resolved.get? name = some key ∨
        name = w.world.forest.sourceType s ∧
          key = t.firstServed (w.world.forest.sourceChain s) := by
  cases hkey : w.resolved.get? (w.world.forest.sourceType s) with
  | some key =>
    refine ⟨w.resolved, ?_, fun _ _ h => .inl h⟩
    rw [resolveFactory_of_noted hkey, hknown key hkey]
  | none =>
    refine ⟨_, resolveFactory_of_new hkey, fun name key hget => ?_⟩
    rw [Table.get?_insert] at hget
    split at hget
    · next heq => exact .inr ⟨heq.symm, (Option.some.inj hget).symm⟩
    · exact .inl hget

/-- The chain of a source whose own type has a factory ends at once. -/
theorem firstServed_own {s : Source} {forest : Forest}
    (hf : t.factories.get? (forest.sourceType s) = some f) :
    t.firstServed (forest.sourceChain s) = some (forest.sourceType s) :=
  List.find?_cons_of_pos (by simp [Table.contains, hf])

theorem outcome_resolveFactory {n : ParseNode} (ha : t.Agrees w.toNotes)
    (hf : t.factories.get? n.rule.name = some f) :
    ∃ w', (t.resolveFactory (.tree n)).outcome w = (.ok (some f), w') ∧ w'.world = w.world ∧
      t.Agrees w'.toNotes := by
  have hserved : t.factories.contains n.rule.name := by simp [Table.contains, hf]
  have hfirst : t.firstServed (w.world.forest.sourceChain (.tree n)) = some n.rule.name :=
    firstServed_own hf
  obtain ⟨resolved, hfound, hnew⟩ := outcome_resolveFactory_of_known (t := t) (s := .tree n)
    fun key hkey => (ha.resolved hkey hserved).trans hfirst.symm
  rw [hfirst, Option.bind_some, hf] at hfound
  refine ⟨_, hfound, rfl, ha.quiet, fun {name key} hget hname => ?_, ha.wired⟩
  rcases hnew name key hget with hold | ⟨rfl, rfl⟩
  · exact ha.resolved hold hname
  · exact hfirst

/-- Notes on wirings that lead where the factories lead. -/
def KnowsWirings (t : Transformer) (notes : Notes) : Prop :=
  ∀ ⦃f : Factory⦄ ⦃nodeType : QualifiedName⦄ ⦃property key⦄,
    notes.wired.get? (f.sourceType, nodeType.display, property) = some key →
    t.factories.get? f.sourceType = some f → key = wiringKey f nodeType property

theorem outcome_findWiring_of_knows (hw : t.KnowsWirings w.toNotes)
    (hf : t.factories.get? f.sourceType = some f) (nodeType : QualifiedName) (property : String) :
    ∃ wired, (findWiring f nodeType property).outcome w =
        (.ok (wiringOf f nodeType property), { w with wired }) ∧
      t.KnowsWirings { w.toNotes with wired } := by
  rw [findWiring, Work.outcome_bind_ok Work.outcome_get]
  dsimp only
  cases hkey : w.wired.get? (f.sourceType, nodeType.display, property) with
  | some key =>
    obtain rfl := hw hkey hf
    exact ⟨w.wired, rfl, hw⟩
  | none =>
    refine ⟨w.wired.insert (f.sourceType, nodeType.display, property)
      (wiringKey f nodeType property), rfl, ?_⟩
    intro g other q key hget hg
    simp only [Table.get?_insert] at hget
    split at hget
    · next heq =>
      -- the note is by the printed name of the node type, and so is the key of a wiring
      simp only [Prod.mk.injEq] at heq
      obtain ⟨hsource, htype, rfl⟩ := heq
      obtain rfl : f = g := Option.some.inj (hf.symm.trans (hsource ▸ hg))
      rw [← Option.some.inj hget, wiringKey, wiringKey, Factory.scopedKey, Factory.scopedKey, htype]
    · exact hw hget hg

theorem outcome_findWiring (ha : t.Agrees w.toNotes)
    (hf : t.factories.get? f.sourceType = some f) (nodeType : QualifiedName) (property : String) :
    ∃ w', (findWiring f nodeType property).outcome w = (.ok (wiringOf f nodeType property), w') ∧
      w'.world = w.world ∧ t.Agrees w'.toNotes := by
  obtain ⟨wired, hfind, hknows⟩ :=
    outcome_findWiring_of_knows (fun _ _ _ _ => ha.wired) hf nodeType property
  exact ⟨_, hfind, rfl, ha.quiet, ha.resolved, fun hkey hg => hknows hkey hg⟩

end Transformer

end Arbor
