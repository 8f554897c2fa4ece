import Arbor.Proofs.Transform.Following
import Arbor.Proofs.Transform.Plainness
import Arbor.Proofs.Transform.Storing

/-!
The engine computes the plain recursion. For plain transformers each step of the engine follows a
step of the recursion: it succeeds where that one does, registers the same types, takes as many
cells, and leaves nodes that realize the drafts, linked as they are to be. What one source needs is
what the sources need that its wirings read, so all follows by induction on the depth.
-/
namespace Arbor

namespace Forest
variable {s : Source} {id : NodeId}

theorem setOrigin_source (h : s.node? ≠ some id) (g : Forest) :
    g.setOrigin id (some (.source s)) = g.update id ({ · with origin := some (.source s) }) := by
  cases s with
  | node o =>
    have hne : o ≠ id := by simpa [Source.node?] using h
    simp [Forest.setOrigin, hne]
  | _ => rfl

/-- A node without an origin comes from the source. -/
theorem node?_setOrigin_from (h : s.node? ≠ some id) (g : Forest) :
    (if ((g.node? id).bind (·.origin)).isNone then g.setOrigin id (some (.source s))
        else g).size = g.size ∧
      ∀ j, (if ((g.node? id).bind (·.origin)).isNone then g.setOrigin id (some (.source s))
        else g).node? j = if j = id then (g.node? j).map (·.from s) else g.node? j := by
  rw [setOrigin_source h]
  split
  · next hnone =>
    refine ⟨by simp, fun j => ?_⟩
    rw [node?_update]
    split
    · next hj =>
      subst hj
      cases hn : g.node? j with
      | none => rfl
      | some n =>
        have horigin : n.origin = none := by simpa [hn] using hnone
        simp [Node.from, horigin]
    · rfl
  · next hsome =>
    refine ⟨rfl, fun j => ?_⟩
    split
    · next hj =>
      subst hj
      cases hn : g.node? j with
      | none => rfl
      | some n =>
        obtain ⟨o, ho⟩ : ∃ o, n.origin = some o := by
          simpa [hn, Option.isNone_iff_eq_none, Option.ne_none_iff_exists'] using hsome
        rw [Option.map_some, Node.from, ho, Option.some_or, ← ho]
    · rfl

/-- A new node gets the source as its origin, and its link. -/
theorem setOrigin_setParent_alloc {g : Forest} (hs : s.Settled g) (look : Node)
    (parent : Option NodeId) :
    ((g.alloc look).2.setOrigin g.size (some (.source s))).setParent g.size parent =
      (g.alloc (({ look with origin := some (.source s) } : Node).setParent parent)).2 := by
  rw [setOrigin_source (hs.node?_ne (Nat.le_refl _)), update_alloc,
    Forest.setParent, update_alloc]

end Forest

namespace Transformer
open Work

section Engine
variable {t : Transformer} {old : Forest} {above : String → List String} {make : Making}
  {draft : Drafter} {w : Workshop} {s : Source} {parent : Option NodeId}

/-- Nodes for the drafts of a source are made, whatever was made before. -/
def Builds (t : Transformer) (old : Forest) (above : String → List String) (make : Making)
    (draft : Drafter) (s : Source) : Prop :=
  ∀ w parent, t.Sound old above w → Follows (make s parent) (draft s) w fun ids ds w' =>
    t.Sound old above w' ∧ w.world.forest.Placed w'.world.forest parent ids ds

theorem follows_makeAll {ss : List Source} (h : ∀ c ∈ ss, t.Builds old above make draft c)
    (hw : t.Sound old above w) :
    Follows (makeAll make parent ss) (draftAll draft ss) w fun ids ds w' =>
      t.Sound old above w' ∧ w.world.forest.Placed w'.world.forest parent ids ds := by
  induction ss generalizing w with
  | nil => exact follows_pure ⟨hw, Forest.placed_nil _ _⟩
  | cons s rest ih =>
    refine follows_bind (h s (by simp) w parent hw) fun ids ds w₁ ⟨hw₁, hfirst⟩ => ?_
    refine follows_bind (ih (fun c hc => h c (by simp [hc])) hw₁)
      fun ids' ds' w₂ ⟨hw₂, hrest⟩ => ?_
    exact follows_pure ⟨hw₂, hfirst.append hrest⟩

theorem follows_transformRaw {raw : Portion Source}
    (h : ∀ c ∈ raw.toList, t.Builds old above make draft c) (hw : t.Sound old above w) :
    Follows (transformRaw make raw parent) (draftAll draft raw.toList) w fun content ds w' =>
      t.Sound old above w' ∧
        w.world.forest.Placed w'.world.forest parent content.toList ds := by
  cases raw with
  | absent => exact follows_pure ⟨hw, Forest.placed_nil _ _⟩
  | one s =>
    rw [transformRaw, Portion.toList, draftAll_singleton]
    refine Follows.map_left ?_
    simpa only [Portion.toList_ofList] using h s (by simp [Portion.toList]) w parent hw
  | many ss => exact (follows_makeAll h hw).map_left

section Wiring
variable {f : Factory} {base : Forest} {id : Nat} {look : Node} {done : List (List NodeId)}
  {parts : List (List Draft)} {p : Property}

/-- What the wirings of a property read is built. -/
def Supplied (t : Transformer) (old : Forest) (above : String → List String) (make : Making)
    (draft : Drafter) (f : Factory) (s : Source) : Prop :=
  ∀ nodeType property v raw, wiringOf f nodeType property = some v → v.get old s = .ok raw →
    ∀ c ∈ raw.toList, t.Builds old above make draft c

/-- The new nodes go into the property that they were made for, or are too many for it. -/
theorem follows_store {g : Forest} {content : Portion NodeId} {ds : List Draft} (hl : look.Bare)
    (hbase : base.Extends old) (hid : id < base.size) (hnew : old.size ≤ id)
    (hp : look.descriptor.properties[done.length]? = some p) (hw : t.Sound old above w)
    (h : base.Tended id look done parts g)
    (hplaced : g.Placed w.world.forest (some id) content.toList ds)
    (tell : Failure → TransformError) (content' : Portion NodeId)
    (hcontent : content'.toList = content.toList) :
    Follows (Work.explain tell (storeBySchema p.name id content')) (p.receive ds) w
      fun _ ds w' => t.Sound old above w' ∧
        ∃ ids, base.Tended id look (done ++ [ids]) (parts ++ [ds]) w'.world.forest := by
  have htended := h.extends hid hplaced.keeps
  have hmade : MadeFor w.world.forest id content.toList :=
    forall_of_forall₂ hplaced.realized fun _ _ hr => hr.exists_node?
  have hdistinct := h.nodup_append hplaced
  rw [Property.receive, ← hplaced.realized.length_eq]
  cases hfits : p.refuses content.toList.length with
  | none =>
    obtain ⟨k, hstore, hk⟩ := outcome_storeBySchema_ok hl hp htended.node htended.typed
      htended.contents hmade hdistinct hcontent hfits
    obtain ⟨hchild, hroom⟩ := refuses_eq_none_iff.mp hfits
    have hfilled := h.fill hl hid hp (fun hne => hchild (by simpa using hne)) hroom hplaced hk
    have hstored : (Work.explain tell (storeBySchema p.name id content')).outcome w =
        (.ok (), w.withWorld w.world.registry k) := by
      rw [outcome_explain, hstore]
      rfl
    exact follows_done hstored (ledger_withWorld hk.size)
      ⟨⟨hfilled.but.extends hbase (by simpa), hw.registry, hw.notes⟩, content.toList, hfilled⟩
  | some o =>
    obtain ⟨e, w', hstore⟩ := outcome_storeBySchema_error hl hp htended.node htended.typed hmade
      hcontent hfits
    have hfailed : (Work.explain tell (storeBySchema p.name id content')).outcome w =
        (.error (tell e), w') := by
      rw [outcome_explain, hstore]
      rfl
    exact follows_throw hfailed

section Serving
variable (ht : t.Plain old) (hf : t.factories.get? f.sourceType = some f) (hs : s.Settled old)
  (hsupplied : t.Supplied old above make draft f s)
include ht hf hs hsupplied

/-- A property of a new node gets what its wiring reads. -/
theorem follows_wireProperty (hl : look.Bare)
    (hbase : base.Extends old) (hid : id < base.size) (hnew : old.size ≤ id)
    (hp : look.descriptor.properties[done.length]? = some p) (hw : t.Sound old above w)
    (h : base.Tended id look done parts w.world.forest) :
    Follows (wireProperty make f id look.qualifiedName s p)
      (draftProperty old draft f look.qualifiedName s p) w fun _ ds w' =>
        t.Sound old above w' ∧
          ∃ ids, base.Tended id look (done ++ [ids]) (parts ++ [ds]) w'.world.forest := by
  obtain ⟨w₁, hfind, hworld, hw₁⟩ := outcome_findWiring_of_sound hw hf look.qualifiedName p.name
  rw [← hworld] at h
  refine follows_after hfind (by rw [hworld]) ?_
  unfold draftProperty
  cases hv : wiringOf f look.qualifiedName p.name with
  | none => exact follows_pure ⟨hw₁, [], h.pass hl hp⟩
  | some v =>
    have hplain := hl.plain p (List.mem_of_getElem? hp)
    obtain ⟨hset, hname⟩ := (ht.wired hf).wiringOf hplain hv
    obtain ⟨key, -, hkey⟩ := Option.bind_eq_some_iff.mp hv
    have hread := ht.reads hf hkey hs hw₁.forest
    refine follows_after outcome_forest rfl ?_
    cases hraw : v.get old s with
    | error cause =>
      simp only [hread, hraw]
      exact follows_throw rfl
    | ok raw =>
      simp only [hread, hraw]
      refine follows_bind (follows_transformRaw (hsupplied _ _ v raw hv hraw) hw₁)
        fun content ds w₂ ⟨hw₂, hplaced⟩ => ?_
      have hstore := follows_store hl hbase hid hnew hp hw₂ h hplaced
        (.childWiring look.qualifiedName.display p.name)
      simp only [store, hset, hname]
      cases content with
      | absent => exact hstore _ rfl
      | many cs => exact hstore _ rfl
      | one c =>
        dsimp only
        split
        · exact hstore _ rfl
        · exact hstore _ rfl

/-- The properties of a new node are filled in their order. -/
theorem follows_wireProperties (hl : look.Bare)
    (hbase : base.Extends old) (hid : id < base.size) (hnew : old.size ≤ id) {ps : List Property}
    (hps : look.descriptor.properties.drop done.length = ps) (hw : t.Sound old above w)
    (h : base.Tended id look done parts w.world.forest) :
    Follows (wireProperties make f id look.qualifiedName s ps)
      (draftProperties old draft f look.qualifiedName s ps) w fun _ more w' =>
        t.Sound old above w' ∧
          ∃ done, base.Tended id look done (parts ++ more) w'.world.forest := by
  induction ps generalizing done parts w with
  | nil => exact follows_pure ⟨hw, done, by simpa using h⟩
  | cons p ps ih =>
    have hp : look.descriptor.properties[done.length]? = some p := by
      rw [← List.head?_drop, hps]
      rfl
    have hfirst := follows_wireProperty ht hf hs hsupplied hl hbase hid hnew hp hw h
    refine follows_bind hfirst fun _ ds w₁ ⟨hw₁, ids, h₁⟩ => ?_
    have hnext : look.descriptor.properties.drop (done ++ [ids]).length = ps := by
      rw [List.length_append, List.length_singleton, ← List.drop_drop, hps]
      rfl
    refine Follows.map_right ((ih hnext hw₁ h₁).imp ?_)
    intro _ more w₂ ⟨hw₂, done', h₂⟩
    exact ⟨hw₂, done', by simpa using h₂⟩

/-- All children of a new node. -/
theorem follows_wireChildren (hl : look.Bare)
    (hnew : old.size ≤ id) (hw : t.Sound old above w)
    (hn : w.world.forest.node? id = some look) :
    Follows (t.wireChildren make f s id)
      (draftProperties old draft f look.qualifiedName s look.descriptor.properties) w
      fun _ parts w' => t.Sound old above w' ∧
        ∃ done, w.world.forest.Tended id look done parts w'.world.forest := by
  refine follows_after outcome_forest rfl ?_
  simp only [hn, ht.hooks]
  exact follows_wireProperties ht hf hs hsupplied hl hw.forest (Forest.lt_size_of_node? hn) hnew
    rfl hw (Forest.tended_nil hl hn)

end Serving

end Wiring

section Completing
variable {f : Factory} {ids : List NodeId} {looks : List Node} {g : Forest}

/-- One change for each of the nodes. -/
theorem outcome_forNodes_modify {step : NodeId → Forest → Forest} {change : NodeId → Node → Node}
    (hstep : ∀ id ∈ ids, ∀ g, (step id g).size = g.size ∧
      ∀ j, (step id g).node? j = if j = id then (g.node? j).map (change id) else g.node? j)
    (hdistinct : ids.Nodup) :
    ∃ g, (forNodes (fun id => modifyForest (step id)) ids).outcome w =
        (.ok (), w.withWorld w.world.registry g) ∧ g.size = w.world.forest.size ∧
      ∀ j, g.node? j =
        if j ∈ ids then (w.world.forest.node? j).map (change j) else w.world.forest.node? j := by
  induction ids generalizing w with
  | nil => exact ⟨w.world.forest, rfl, rfl, by simp⟩
  | cons id rest ih =>
    obtain ⟨hid, hrest⟩ := List.nodup_cons.mp hdistinct
    obtain ⟨hsize, hnode⟩ := hstep id (by simp) w.world.forest
    obtain ⟨g, hrun, hgsize, hgnode⟩ :=
      @ih (w.withWorld w.world.registry (step id w.world.forest))
        (fun c hc => hstep c (by simp [hc])) hrest
    refine ⟨g, ?_, hgsize.trans hsize, fun j => ?_⟩
    · rw [forNodes, outcome_bind_ok (outcome_modifyForest _), hrun]
      rfl
    · rw [hgnode]
      show (if j ∈ rest then ((step id w.world.forest).node? j).map (change j)
        else (step id w.world.forest).node? j) = _
      rw [hnode]
      by_cases hj : j = id
      · simp [hj, hid]
      · simp [hj]

theorem outcome_setOrigins (hs : s.Settled old) (hnew : ∀ id ∈ ids, old.size ≤ id)
    (hdistinct : ids.Nodup) (hlooks : w.world.forest.Looks ids looks) :
    ∃ g, (forNodes (fun id => modifyForest fun forest =>
        if ((forest.node? id).bind (·.origin)).isNone then forest.setOrigin id (some (.source s))
        else forest) ids).outcome w = (.ok (), w.withWorld w.world.registry g) ∧
      g.size = w.world.forest.size ∧ g.ExtendsBut w.world.forest ids ∧
      g.Looks ids (looks.map (·.from s)) := by
  obtain ⟨g, hrun, hsize, hnode⟩ := outcome_forNodes_modify (w := w)
    (fun id hid => Forest.node?_setOrigin_from (hs.node?_ne (hnew id hid))) hdistinct
  refine ⟨g, hrun, hsize, Forest.extendsBut_of_changes hsize hnode, ?_⟩
  refine List.forall₂_map_right_iff.mpr ((forall₂_mem hlooks).imp fun id look ⟨hid, hn, hl⟩ => ?_)
  exact ⟨by rw [hnode, if_pos hid, hn, Option.map_some], hl.from s⟩

/-- Each of the nodes gets its link. -/
theorem outcome_setLinks (parent : Option NodeId) (hdistinct : ids.Nodup) :
    ∃ g, (forNodes (fun id => modifyForest (·.setParent id parent)) ids).outcome w =
        (.ok (), w.withWorld w.world.registry g) ∧ g.size = w.world.forest.size ∧
      ∀ j, g.node? j = if j ∈ ids then (w.world.forest.node? j).map (·.setParent parent)
        else w.world.forest.node? j := by
  refine outcome_forNodes_modify (fun id _ g => ⟨by simp [Forest.setParent], fun j => ?_⟩) hdistinct
  rw [Forest.setParent, Forest.node?_update]
  split
  · next hj => rw [hj]
  · rfl

theorem outcome_setParents {mark : Nat} {ds : List Draft} (hold : ∀ id ∈ ids, id < mark)
    (hdistinct : ids.Nodup)
    (hrealized : List.Forall₂ (w.world.forest.Realizes mark none) ids ds) :
    ∃ g, (forNodes (fun id => modifyForest (·.setParent id parent)) ids).outcome w =
        (.ok (), w.withWorld w.world.registry g) ∧ g.size = w.world.forest.size ∧
      g.ExtendsBut w.world.forest ids ∧ List.Forall₂ (g.Realizes mark parent) ids ds := by
  obtain ⟨g, hrun, hsize, hnode⟩ := outcome_setLinks (w := w) parent hdistinct
  exact ⟨g, hrun, hsize, Forest.extendsBut_of_changes hsize hnode,
    Forest.forall₂_relink hrealized hold hnode⟩

section Serving
variable (ht : t.Plain old) (hf : t.factories.get? f.sourceType = some f) (hs : s.Settled old)
  (hsupplied : t.Supplied old above make draft f s)
include ht hf hs hsupplied

/-- The nodes that a constructor made get their children one after the other. -/
theorem follows_wireNodes
    (hnew : ∀ id ∈ ids, old.size ≤ id) (hdistinct : ids.Nodup) (hw : t.Sound old above w)
    (hlooks : w.world.forest.Looks ids (looks.map (·.from s))) :
    Follows (forNodes (t.wireChildren make f s) ids) (draftNodes old draft f s (ids.zip looks)) w
      fun _ ds w' => t.Sound old above w' ∧ w'.world.forest.ExtendsBut w.world.forest ids ∧
        List.Forall₂ (w'.world.forest.Realizes w.world.forest.size none) ids ds := by
  induction looks generalizing ids w with
  | nil =>
    obtain rfl : ids = [] := by simpa [Forest.Looks] using hlooks
    exact follows_pure ⟨hw, Forest.Extends.but (.refl _) _, .nil⟩
  | cons look looks ih =>
    obtain ⟨id, rest, ⟨hn, hl⟩, hrest, rfl⟩ := List.forall₂_cons_right_iff.mp hlooks
    obtain ⟨hid, hrestDistinct⟩ := List.nodup_cons.mp hdistinct
    have hfirst := follows_wireChildren ht hf hs hsupplied hl (hnew id (by simp)) hw hn
    refine follows_bind hfirst fun _ parts w₁ ⟨hw₁, done, htended⟩ => ?_
    have hrest₁ : w₁.world.forest.Looks rest (looks.map (·.from s)) := by
      refine (forall₂_mem hrest).imp fun c look' ⟨hmem, hc, hl'⟩ => ⟨?_, hl'⟩
      have hne : c ≠ id := ne_of_mem_of_not_mem hmem hid
      rw [htended.but.older (Forest.lt_size_of_node? hc) (by simpa using hne), hc]
    have hlater := ih (fun c hc => hnew c (by simp [hc])) hrestDistinct hw₁ hrest₁
    refine Follows.map_right (hlater.imp ?_)
    intro _ ds w₂ ⟨hw₂, hbut, hrealized⟩
    refine ⟨hw₂, ?_, .cons ?_ (hrealized.imp fun _ _ hr => hr.mono htended.but.size)⟩
    · exact (htended.but.mono (by simp)).trans (hbut.mono (by simp))
    · -- the later nodes are older than all that is below the first one
      refine (htended.realizes hl).congr ?_
      rintro j (rfl | hj) hlt
      · exact hbut.older hlt hid
      · exact hbut.older hlt fun hmem => Nat.not_lt.mpr hj (Forest.Looks.lt_size hrest j hmem)

/-- What a constructor made gets origins, children and links. -/
theorem follows_complete
    (hnew : ∀ id ∈ ids, old.size ≤ id) (hdistinct : ids.Nodup) (hw : t.Sound old above w)
    (hlooks : w.world.forest.Looks ids looks) :
    Follows (t.complete make f s parent ids) (draftNodes old draft f s (ids.zip looks)) w
      fun ids' ds w' => ids' = ids ∧ t.Sound old above w' ∧
        w'.world.forest.ExtendsBut w.world.forest ids ∧
        List.Forall₂ (w'.world.forest.Realizes w.world.forest.size parent) ids ds := by
  obtain ⟨hfinalize, hskips, hconstructs⟩ := (ht.wired hf).steps
  unfold complete
  simp only [hfinalize, hskips, hconstructs, ht.hooks, Bool.not_false, Bool.and_self, if_true]
  obtain ⟨g, horigins, hsize, hbut, hlooks₁⟩ := outcome_setOrigins hs hnew hdistinct hlooks
  refine follows_after horigins (ledger_withWorld hsize) ?_
  have hw₁ : t.Sound old above (w.withWorld w.world.registry g) :=
    ⟨hbut.extends hw.forest hnew, hw.registry, hw.notes⟩
  have hwire := follows_wireNodes ht hf hs hsupplied hnew hdistinct hw₁ hlooks₁
  rw [← bind_pure (draftNodes old draft f s (ids.zip looks))]
  refine follows_bind hwire fun _ ds w₂ ⟨hw₂, hbut₂, hrealized⟩ => ?_
  obtain ⟨k, hlinks, hsize₃, hbut₃, hrealized'⟩ :=
    outcome_setParents hlooks₁.lt_size hdistinct hrealized
  have hall := hbut.trans (hbut₂.trans hbut₃)
  refine follows_done (outcome_bind_ok hlinks _) (ledger_withWorld hsize₃)
    ⟨rfl, ⟨hall.extends hw.forest hnew, hw₂.registry, hw₂.notes⟩, hall, ?_⟩
  exact hrealized'.imp fun _ _ hr => hr.mono hbut.size

end Serving

end Completing

section StandIns

/-- A node without children that takes the next cell. -/
theorem follows_alone {x : Work TransformError NodeId} {w' : Workshop}
    {step : Registry → Node × Registry} (hx : x.outcome w = (.ok w.world.forest.size, w'))
    (hworld : w'.world = ⟨(step w.world.registry).2,
      (w.world.forest.alloc ((step w.world.registry).1.setParent parent)).2⟩)
    (hempty : (step w.world.registry).1.children = []) (hw' : t.Sound old above w') :
    Follows x (.withLedger (Draft.alone step)) w fun id d w' =>
      t.Sound old above w' ∧ w.world.forest.Placed w'.world.forest parent [id] [d] := by
  refine follows_withLedger hx ?_ ⟨hw', ?_⟩
  · rw [hworld]
    exact congrArg (Ledger.mk _) (Forest.size_alloc _ _)
  · rw [hworld]
    exact Forest.placed_alloc _ hempty _

/-- A source that nothing maps becomes a placeholder. -/
theorem follows_makePlaceholder (ht : t.Plain old) (hs : s.Settled old)
    (hw : t.Sound old above w) :
    Follows (t.makePlaceholder s parent) (.withLedger (Draft.alone (s.placeholder old))) w
      fun id d w' => t.Sound old above w' ∧
        w.world.forest.Placed w'.world.forest parent [id] [d] := by
  have hgeneric : Kind.genericNode ∈ Family.builtin.kinds := by decide
  have hregister := Registry.register_builtin hgeneric (hw.registry _ hgeneric)
  have hopen := (hw.registry.builtin hgeneric).registerPlaceholder (old.sourceType s)
    (old.sourceType s) (some (w.world.registry.builtin .genericNode).1)
  have hcreate : (Work.explain TransformError.forest
      (Work.withWorld (·.createPlaceholder (old.sourceType s)))).outcome w =
      (.ok w.world.forest.size, w.withWorld (s.placeholder old w.world.registry).2
        (w.world.forest.alloc (.blank (s.placeholder old w.world.registry).1.descriptor)).2) := by
    simp only [outcome_explain, outcome_withWorld, World.createPlaceholder, World.register,
      hregister]
    rfl
  have hmade : ∃ issues, (t.makePlaceholder s parent).outcome w = (.ok w.world.forest.size,
      { w.withWorld (s.placeholder old w.world.registry).2 (w.world.forest.alloc
          ((s.placeholder old w.world.registry).1.setParent parent)).2 with issues }) := by
    rw [makePlaceholder, outcome_bind_ok outcome_forest, hs.sourceType_eq hw.forest]
    simp only [ht.generic, ht.hooks, Bool.not_true, Bool.false_eq_true, if_false]
    rw [outcome_bind_ok hcreate, outcome_bind_ok (outcome_modifyForest _)]
    simp only [Workshop.withWorld, Forest.setOrigin_setParent_alloc (hs.mono hw.forest)]
    exact ⟨_, rfl⟩
  obtain ⟨issues, hmade⟩ := hmade
  have hempty : (s.placeholder old w.world.registry).1.children = [] :=
    (Node.typed_blank _).children_eq.trans (Node.contents_blank _)
  exact follows_alone hmade rfl hempty
    ⟨(Forest.extends_alloc _ _).trans hw.forest, hopen, hw.notes.resolved, hw.notes.wired⟩

/-- A source whose constructor fails becomes an error node. -/
theorem follows_makeError (ht : t.Plain old) (hs : s.Settled old) (hw : t.Sound old above w)
    (cause : Failure) :
    Follows (t.makeError s parent cause) (.withLedger (Draft.alone (s.errorNode old cause))) w
      fun id d w' => t.Sound old above w' ∧
        w.world.forest.Placed w'.world.forest parent [id] [d] := by
  have herror : Kind.errorNode ∈ Family.builtin.kinds := by decide
  have hregister := Registry.register_builtin herror (hw.registry _ herror)
  have hanswers := Registry.answers_builtin herror (hw.registry _ herror)
  obtain ⟨hmade, hfresh⟩ := outcome_makeError_alloc (t := t) hregister hanswers.declared
    hanswers.names s parent cause
  rw [hs.sourceType_eq hw.forest] at hmade hfresh
  simp only [ht.hooks, Forest.setOrigin_setParent_alloc (hs.mono hw.forest)] at hmade
  have hempty : (s.errorNode old cause w.world.registry).1.children = [] :=
    hfresh.typed.children_eq.trans hfresh.contents
  exact follows_alone hmade rfl hempty
    ⟨(Forest.extends_alloc _ _).trans hw.forest, hw.registry.builtin herror, hw.notes⟩

end StandIns

/-- The factory that is to serve a source stands under its own source type. -/
theorem get?_of_serving (ht : t.Plain old) {f : Factory} (hf : t.serving old s = some f) :
    t.factories.get? f.sourceType = some f := by
  obtain ⟨name, -, hget⟩ := Option.bind_eq_some_iff.mp hf
  rw [ht.keyed hget, hget]

/-- The nodes for a source, at every depth, follow the recursion at this depth. -/
theorem builds_makeWithin (ht : t.Plain old) (hs : t.FiniteSource old above s) (depth : Nat) :
    t.Builds old above (t.makeWithin depth) (t.draftWithin old depth) s := by
  induction depth generalizing s with
  | zero => exact fun w parent _ => follows_throw rfl
  | succ depth ih =>
    intro w parent hw
    obtain ⟨hsettled, habove, hreads⟩ := hs
    obtain ⟨w₁, hresolve, hworld, hw₁⟩ := outcome_resolveFactory_of_sound hw hsettled habove
    refine follows_after hresolve (by rw [hworld]) ?_
    rw [draftWithin, ← hworld]
    cases hserving : t.serving old s with
    | none =>
      refine follows_bind (follows_makePlaceholder ht hsettled hw₁) fun _ _ _ hmade => ?_
      exact follows_pure hmade
    | some f =>
      have hf := get?_of_serving ht hserving
      have hsupplied : t.Supplied old above (t.makeWithin depth) (t.draftWithin old depth) f s :=
        fun _ _ _ _ hv hraw c hc => ih (hreads c (mem_reads hserving hv hraw hc))
      refine follows_after outcome_forest rfl ?_
      obtain ⟨w₂, hnotes, hkeeps, hopen, hcase⟩ := ht.crafts hf hsettled
        (transformChild (t.makeWithin depth) f) w₁ hw₁.forest hw₁.registry
      have hw₂ : t.Sound old above w₂ := ⟨hkeeps.trans hw₁.forest, hopen, hnotes ▸ hw₁.notes⟩
      rcases hcase with ⟨cause, hfails, hcraft⟩ |
        ⟨ids, looks, hmakes, hcraft, hdistinct, hnew, hlooks⟩
      · refine follows_attempt hfails hcraft ?_
        -- what the constructor left behind is dropped before the error node is made
        have hdropped := hkeeps.collectSince []
        have hw₃ : t.Sound old above (w₂.withWorld w₂.world.registry
            (w₂.world.forest.collectSince w₁.world.forest.size [])) :=
          ⟨hdropped.trans hw₁.forest, hopen, hw₂.notes⟩
        refine follows_after outcome_forest rfl ?_
        rw [if_pos ht.generic]
        refine follows_after (outcome_setForest _)
          (ledger_withWorld (Forest.size_collectSince _ _ _)) ?_
        refine follows_bind (follows_makeError ht hsettled hw₃ cause)
          fun _ _ w₄ ⟨hw₄, hplaced⟩ => ?_
        exact follows_pure ⟨hw₄, hplaced.of_extends hdropped⟩
      · refine follows_attempt hmakes hcraft ?_
        have hids : ∀ id ∈ ids, old.size ≤ id := fun id hid =>
          Nat.le_trans hw₁.forest.size (hnew id hid)
        refine (follows_complete ht hf hsettled hsupplied hids hdistinct hw₂ hlooks).imp ?_
        rintro _ ds w₃ ⟨rfl, hw₃, hbut, hrealized⟩
        exact ⟨hw₃, hbut.extends hkeeps hnew, hdistinct, hnew,
          hrealized.imp fun _ _ hr => hr.mono hkeeps.size⟩

end Engine

/-- The engine computes the plain recursion. On a finite source the recursion gives one plan at
every depth that is enough; the engine then succeeds if and only if the plan is one of drafts and
not an obstacle, and on success the nodes that it gives are new and distinct, realize the drafts,
each in the cell that its draft tells, and are linked to the wanted parent. Older nodes are as they
were, the registry and the number of cells are those that the recursion leaves, and the notes still
lead where the factories lead. -/
theorem transformIntoNodes_folds {t : Transformer} {above : String → List String} {w : Workshop}
    {s : Source} (ht : t.Plain w.world.forest) (hs : t.FiniteSource w.world.forest above s)
    (hregistry : w.world.registry.Open) (hnotes : t.Recalls above w.toNotes) :
    ∃ bound plan l, ∀ depth, bound ≤ depth →
      (t.draftWithin w.world.forest depth s).answer w.world.ledger = (plan, l) ∧
      plan ≠ .error .tooDeep ∧
      ∀ parent,
        let made := (t.transformIntoNodes depth (.one s) parent).outcome w
        ((∃ ids, made.1 = .ok ids) ↔ ∃ ds, plan = .ok ds) ∧
        ∀ ds, plan = .ok ds → ∃ ids, made.1 = .ok ids ∧
          w.world.forest.Placed made.2.world.forest parent ids ds ∧
          made.2.world.ledger = l ∧ t.Recalls above made.2.toNotes := by
  obtain ⟨bound, hbound⟩ := hs.exists_bounded
  have hsound : t.Sound w.world.forest above w := ⟨.refl _, hregistry, hnotes⟩
  cases hplan : (t.draftWithin w.world.forest bound s).answer w.world.ledger with
  | mk plan l =>
    refine ⟨bound, plan, l, fun depth hdepth => ?_⟩
    have hsame : (t.draftWithin w.world.forest depth s).answer w.world.ledger = (plan, l) := by
      rw [hbound.same hdepth, hplan]
    refine ⟨hsame, fun htoo => hbound.ends _ l (htoo ▸ hplan), fun parent => ?_⟩
    have hfollows : Follows (t.transformIntoNodes depth (.one s) parent) _ w _ :=
      builds_makeWithin ht hs depth w parent hsound
    cases plan with
    | ok ds =>
      obtain ⟨ids, w', hmade, hledger, hw', hplaced⟩ := hfollows.ok hsame
      simp only [hmade]
      refine ⟨⟨fun _ => ⟨ds, rfl⟩, fun _ => ⟨ids, rfl⟩⟩, fun ds' hds => ?_⟩
      obtain rfl := Except.ok.inj hds
      exact ⟨ids, rfl, hplaced, hledger, hw'.notes⟩
    | error o =>
      obtain ⟨e, w', hfailed⟩ := hfollows.error hsame
      simp only [hfailed]
      refine ⟨⟨?_, ?_⟩, ?_⟩
      · rintro ⟨ids, hids⟩
        cases hids
      · rintro ⟨ds, hds⟩
        cases hds
      · intro ds hds
        cases hds

/-- A factory for boxes with a label, a lid and items. Its constructor makes an empty box. -/
def boxType : Descriptor :=
  ⟨⟨0, ⟨"demo", "Box"⟩, [.attr "label" "string", .child "lid" "Node", .children "items" "Node"],
    .dynamic "Box"⟩, []⟩

def partsNamed (name : String) : Forest → Source → Except Failure (Portion Source)
  | _, .record r => .ok (r.part name)
  | _, _ => .ok .absent

def boxFactory : Factory :=
  (Factory.withScopedChild (Factory.withChild
    { sourceType := "Box"
      construct := fun _ _ => do
        let id ← Work.withWorld fun world =>
          let (id, world) := world.createOf boxType
          (.ok id, world)
        return [id] }
    "items" (partsNamed "items")) ⟨"demo", "Box"⟩ "lid" (partsNamed "lid"))

/-- A factory for keys. Its constructor makes two of them, each of which names the other one. -/
def keyType : Descriptor :=
  ⟨⟨1, ⟨"demo", "Key"⟩, [.reference "spare" "Key"], .dynamic "Key"⟩, []⟩

def keyNaming (other : NodeId) : Node :=
  { descriptor := keyType, slots := [.reference ⟨"spare", some other⟩] }

def keyFactory : Factory where
  sourceType := "Key"
  construct _ _ := Work.withWorld fun world =>
    let first := world.forest.size
    (.ok [first, first + 1],
      { world with forest := world.forest.allocAll [keyNaming (first + 1), keyNaming first] })

def boxTransformer : Transformer :=
  (({} : Transformer).addFactory boxFactory).addFactory keyFactory

/-- A box with a lid and a coin that nothing maps, another box and keys. -/
def coinBox : Source :=
  .record { typeName := "Box", parts := [
    ("lid", .one (.record { typeName := "Lid" })),
    ("items", .many [.record { typeName := "Box" }, .record { typeName := "Coin" },
      .record { typeName := "Key" }])] }

theorem allocates_boxFactory : boxFactory.Allocates fun _ => [.blank boxType] :=
  Factory.allocates_blank (by decide) (by decide) fun _ _ _ => rfl

theorem allocates_keyFactory :
    keyFactory.Allocates fun first => [keyNaming (first + 1), keyNaming first] where
  bare {first n} hn := by
    have hnames : (keyType.properties.map (·.name)).Nodup := by decide
    have hplain : ∀ p ∈ keyType.properties, '#' ∉ p.name.toList := by decide
    have hbare : ∀ other, (keyNaming other).Bare := fun other =>
      ⟨.cons rfl .nil, rfl, rfl, hnames, hplain⟩
    rcases List.mem_pair.mp hn with rfl | rfl
    · exact hbare _
    · exact hbare _
  numbers old first := by
    simp [keyNaming, Node.renumber, Slot.renumber]
  made _ _ _ := rfl

theorem get?_boxTransformer {name : String} {f : Factory}
    (hf : boxTransformer.factories.get? name = some f) :
    name = "Box" ∧ f = boxFactory ∨ name = "Key" ∧ f = keyFactory := by
  simp only [boxTransformer, addFactory, Table.get?_insert] at hf
  split at hf
  · next h => exact .inr ⟨h.symm, (Option.some.inj hf).symm⟩
  · split at hf
    · next h => exact .inl ⟨h.symm, (Option.some.inj hf).symm⟩
    · cases hf

theorem plain_boxTransformer (old : Forest) : boxTransformer.Plain old where
  hooks := rfl
  generic := rfl
  keyed hf := by
    rcases get?_boxTransformer hf with ⟨rfl, rfl⟩ | ⟨rfl, rfl⟩ <;> rfl
  wired hf := by
    rcases get?_boxTransformer hf with ⟨-, rfl⟩ | ⟨-, rfl⟩
    · exact .withScopedChild (.withChild (.bare rfl rfl rfl rfl) (by decide) _) _ (by decide) _
    · exact .bare rfl rfl rfl rfl
  crafts hf _ := by
    rcases get?_boxTransformer hf with ⟨-, rfl⟩ | ⟨-, rfl⟩
    · exact allocates_boxFactory.crafts _ _
    · exact allocates_keyFactory.crafts _ _
  reads {name key f v s g} hf hv _ _ := by
    have hread : ∀ part forest, partsNamed part forest s = partsNamed part old s := by
      intro part forest
      cases s <;> rfl
    rcases get?_boxTransformer hf with ⟨-, rfl⟩ | ⟨-, rfl⟩
    · simp only [boxFactory, Factory.withScopedChild, Factory.withChild, Factory.addWiring,
        Table.get?_insert] at hv
      split at hv
      · obtain rfl := Option.some.inj hv
        exact hread _ g
      · split at hv
        · obtain rfl := Option.some.inj hv
          exact hread _ g
        · cases hv
    · cases hv

theorem reads_coinBox : boxTransformer.reads {} coinBox = [.record { typeName := "Box" },
    .record { typeName := "Coin" }, .record { typeName := "Key" },
    .record { typeName := "Lid" }] := rfl

theorem reads_of_mem_reads_coinBox :
    ∀ c ∈ boxTransformer.reads {} coinBox, boxTransformer.reads {} c = [] := by
  simp only [reads_coinBox, List.mem_cons, List.not_mem_nil, or_false]
  rintro c (rfl | rfl | rfl | rfl) <;> rfl

theorem finiteSource_coinBox : boxTransformer.FiniteSource {} (fun _ => []) coinBox := by
  have hrecord : ∀ c ∈ boxTransformer.reads {} coinBox,
      c.Settled {} ∧ ({} : Forest).sourceSupertypes c = [] := by
    simp only [reads_coinBox, List.mem_cons, List.not_mem_nil, or_false]
    rintro c (rfl | rfl | rfl | rfl) <;> exact ⟨fun _ hid => (nomatch hid), rfl⟩
  refine .intro (fun _ hid => nomatch hid) rfl fun c hc => ?_
  refine .intro (hrecord c hc).1 (hrecord c hc).2 ?_
  simp [reads_of_mem_reads_coinBox c hc]

/-- The engine makes the box with all that is in it, and the keys name each other. -/
theorem coinBox_folds : ∃ bound, ∀ depth, bound ≤ depth → ∀ parent,
    let made := (boxTransformer.transformIntoNodes depth (.one coinBox) parent).outcome {}
    ∃ ids ds, (boxTransformer.draftWithin {} 2 coinBox).answer {} =
        (.ok ds, made.2.world.ledger) ∧
      made.1 = .ok ids ∧ ({} : Forest).Placed made.2.world.forest parent ids ds := by
  have hbounded : Bounded 2 fun depth => boxTransformer.draftWithin {} depth coinBox :=
    bounded_draftWithin_succ fun c hc => bounded_draftWithin_succ fun d hd => by
      simp [reads_of_mem_reads_coinBox c hc] at hd
  obtain ⟨bound, plan, l, hfolds⟩ := transformIntoNodes_folds (w := {}) (plain_boxTransformer {})
    finiteSource_coinBox (Registry.open_empty .fail)
    ⟨fun h => by simp at h, fun _ _ _ _ h => by simp at h⟩
  refine ⟨max bound 2, fun depth hdepth parent => ?_⟩
  obtain ⟨hplan, -, hmade⟩ := hfolds depth (by omega)
  have hok : ((boxTransformer.draftWithin {} 2 coinBox).answer {}).1.isOk = true := rfl
  have hsame := hbounded.same (Nat.le_trans (Nat.le_max_right bound 2) hdepth)
  have htwo : (boxTransformer.draftWithin {} 2 coinBox).answer {} = (plan, l) := by
    rw [← hsame]
    exact hplan
  rw [htwo] at hok ⊢
  cases plan with
  | error o => cases hok
  | ok ds =>
    obtain ⟨ids, hids, hplaced, hl, -⟩ := (hmade parent).2 ds rfl
    exact ⟨ids, ds, Prod.ext rfl hl.symm, hids, hplaced⟩

end Transformer

end Arbor
