import Arbor.Proofs.Transform.Folding
import Arbor.Proofs.Transform.StandIns
import Arbor.Proofs.Transform.Wirings

/-!
Every source that nothing maps is reported, in the order of the walk through the tree that is made.
An issue is added when its node is made, while other nodes are not yet in their places; but the
nodes for a property are made one after the other before the next property has its turn, all of them
are kept, and in the order in which they were made. So at each step the nodes that were reported
are, in the order of their issues, those that walks through the trees made so far meet.
-/
namespace Arbor

/-- A constructor that makes distinct new nodes without parent and children, or fails. It asks for
no children, changes no node that is there, and writes nothing down. -/
def Factory.MakesFresh (f : Factory) : Prop :=
  ∀ supply s (w : Workshop), w.world.registry.All Descriptor.PlainNamed →
    let made := (f.construct supply s).outcome w
    made.2.toNotes = w.toNotes ∧ made.2.world.forest.Extends w.world.forest ∧
      made.2.world.registry.All Descriptor.PlainNamed ∧
      ∀ ids, made.1 = .ok ids → ids.Nodup ∧ ∀ id ∈ ids, w.world.forest.size ≤ id ∧
        ∃ look, made.2.world.forest.node? id = some look ∧ look.Bare

/-- Setting an origin changes one node, and nothing of it that counts for its place in a tree. -/
theorem Forest.exists_setOrigin (id : NodeId) (origin : Option Origin) :
    ∃ change : Node → Node, (∀ n, n.Bare → (change n).Bare) ∧
      ∀ f : Forest, (f.setOrigin id origin).size = f.size ∧ ∀ j, (f.setOrigin id origin).node? j =
        if j = id then (f.node? j).map change else f.node? j := by
  have hupdate : ∀ f : Forest, (f.update id ({ · with origin })).size = f.size ∧
      ∀ j, (f.update id ({ · with origin })).node? j =
        if j = id then (f.node? j).map ({ · with origin }) else f.node? j := by
    refine fun f => ⟨by simp, fun j => ?_⟩
    rw [node?_update]
    split
    · next hj => rw [hj]
    · rfl
  have hbare : ∀ n : Node, n.Bare → ({ n with origin } : Node).Bare := fun n hn =>
    ⟨hn.typed, hn.contents, hn.parent, hn.names, hn.plain⟩
  unfold setOrigin
  split
  · split
    · exact ⟨fun n => n, fun _ hn => hn, fun f => ⟨rfl, fun j => by simp⟩⟩
    · exact ⟨_, hbare, hupdate⟩
  · exact ⟨_, hbare, hupdate⟩

/-- So does giving an origin to a node that has none. -/
theorem Forest.exists_originate (id : NodeId) (origin : Option Origin) :
    ∃ change : Node → Node, (∀ n, n.Bare → (change n).Bare) ∧ ∀ f : Forest,
      (if ((f.node? id).bind (·.origin)).isNone then f.setOrigin id origin else f).size = f.size ∧
      ∀ j, (if ((f.node? id).bind (·.origin)).isNone then f.setOrigin id origin else f).node? j =
        if j = id then (f.node? j).map change else f.node? j := by
  obtain ⟨change, hkeeps, hchange⟩ := exists_setOrigin id origin
  refine ⟨fun n => if n.origin.isNone then change n else n, fun n hn => ?_, fun f => ?_⟩
  · dsimp only
    split
    · exact hkeeps n hn
    · exact hn
  · obtain ⟨hsize, hnode⟩ := hchange f
    cases hn : f.node? id with
    | none =>
      refine ⟨hsize, fun j => ?_⟩
      simp only [Option.bind_none, Option.isNone_none, if_true, hnode]
      split
      · next hj => rw [hj, hn, Option.map_none, Option.map_none]
      · rfl
    | some n =>
      by_cases horigin : n.origin.isNone
      · simp only [Option.bind_some, horigin, if_true]
        refine ⟨hsize, fun j => ?_⟩
        rw [hnode]
        split
        · next hj => rw [hj, hn, Option.map_some, Option.map_some, if_pos horigin]
        · rfl
      · simp only [Option.bind_some, horigin, Bool.false_eq_true, if_false]
        refine ⟨trivial, fun j => ?_⟩
        split
        · next hj => rw [hj, hn, Option.map_some, if_neg horigin]
        · rfl

namespace Transformer
open Work

/-- Notes on wirings that lead where the factories lead, and types with plain property names. -/
structure Trusted (t : Transformer) (w : Workshop) : Prop where
  notes : t.KnowsWirings w.toNotes
  registry : w.world.registry.All Descriptor.PlainNamed

/-- Trees were made, and the sources that nothing maps were reported in the order of the walk. -/
structure Grown (t : Transformer) (parent : Option NodeId) (w w' : Workshop) (ids : List NodeId)
    (seen : List Sighting) : Prop where
  trusted : t.Trusted w'
  issues : w'.issues = w.issues ++ seen.map Sighting.issue
  placed : ∃ ds, w.world.forest.Placed w'.world.forest parent ids ds
  lists : w'.world.forest.Lists ids (seen.map (·.node))

/-- Whatever is made from a source is reported. -/
def Reports (t : Transformer) (make : Watching) : Prop :=
  ∀ s parent w, t.Trusted w → (make s parent).Yields w fun made w' =>
    t.Grown parent w w' made.1 made.2

section Growing
variable {t : Transformer} {parent : Option NodeId} {w w' w₁ w₂ : Workshop} {make : Watching}
  {ids ids' : List NodeId} {seen seen' : List Sighting}

theorem grown_nil (h : t.Trusted w) (parent : Option NodeId) : t.Grown parent w w [] [] where
  trusted := h
  issues := (List.append_nil _).symm
  placed := ⟨[], Forest.placed_nil _ _⟩
  lists := Forest.lists_nil _

theorem Grown.append (h : t.Grown parent w w₁ ids seen) (h' : t.Grown parent w₁ w₂ ids' seen') :
    t.Grown parent w w₂ (ids ++ ids') (seen ++ seen') := by
  obtain ⟨ds, hplaced⟩ := h.placed
  obtain ⟨ds', hplaced'⟩ := h'.placed
  refine ⟨h'.trusted, ?_, ⟨ds ++ ds', hplaced.append hplaced'⟩, ?_⟩
  · rw [h'.issues, h.issues, List.append_assoc, List.map_append]
  · rw [List.map_append]
    exact hplaced.lists_append hplaced' h.lists h'.lists

/-- What a constructor that failed left behind does not count. -/
theorem Grown.of_extends (h : t.Grown parent w₁ w' ids seen) (hissues : w₁.issues = w.issues)
    (hforest : w₁.world.forest.Extends w.world.forest) : t.Grown parent w w' ids seen := by
  obtain ⟨ds, hplaced⟩ := h.placed
  exact ⟨h.trusted, by rw [h.issues, hissues], ⟨ds, hplaced.of_extends hforest⟩, h.lists⟩

/-- A node that stands in for what was not built. -/
theorem grown_of_adds {id : NodeId} (h : w.Adds parent w' id) (hnotes : t.KnowsWirings w'.toNotes)
    (hissues : w'.issues = w.issues ++ seen.map Sighting.issue)
    (hseen : (seen.map (·.node)).Sublist [id]) : t.Grown parent w w' [id] seen := by
  obtain ⟨look, hlook, hforest⟩ := h.forest
  obtain rfl := h.place
  have hplaced : w.world.forest.Placed w'.world.forest parent [w.world.forest.size]
      [.node w.world.forest.size look []] := by
    rw [hforest]
    exact Forest.placed_alloc w.world.forest hlook parent
  obtain ⟨hrealized, -⟩ := List.forall₂_cons.mp hplaced.realized
  have hchildren : w'.world.forest.children w.world.forest.size = [] := by
    rw [hforest, Forest.children, Forest.node?_alloc, if_pos rfl]
    exact hlook
  have hwalk : w'.world.forest.preorder w.world.forest.size = [w.world.forest.size] := by
    rw [hrealized.grounded.preorder_eq, hchildren, List.flatMap_nil]
  refine ⟨⟨hnotes, h.registry⟩, hissues, ⟨_, hplaced⟩, ?_, ?_⟩
  · rw [List.flatMap_singleton, hwalk]
    exact List.nodup_singleton _
  · rw [List.flatMap_singleton, hwalk]
    exact hseen

theorem yields_watchAll (hmake : t.Reports make) (hw : t.Trusted w) (ss : List Source) :
    (watchAll make parent ss).Yields w fun made w' => t.Grown parent w w' made.1 made.2 := by
  induction ss generalizing w with
  | nil => exact yields_pure (grown_nil hw parent)
  | cons s rest ih =>
    refine yields_bind (hmake s parent w hw) fun first w₁ hfirst => ?_
    refine yields_bind (ih hfirst.trusted) fun later w₂ hlater => ?_
    exact yields_pure (hfirst.append hlater)

theorem yields_watchRaw (hmake : t.Reports make) (hw : t.Trusted w) (raw : Portion Source) :
    (watchRaw make raw parent).Yields w fun made w' =>
      t.Grown parent w w' made.1.toList made.2 := by
  cases raw with
  | absent => exact yields_pure (grown_nil hw parent)
  | one s =>
    refine yields_bind (hmake s parent w hw) fun made w₁ h => yields_pure ?_
    show t.Grown parent w w₁ (Portion.ofList made.1).toList made.2
    rwa [Portion.toList_ofList]
  | many ss =>
    exact yields_bind (yields_watchAll hmake hw ss) fun made w₁ h => yields_pure h

end Growing

section Wiring
variable {t : Transformer} {f : Factory} {make : Watching} {base w w₁ : Workshop} {id : Nat}
  {look : Node} {done : List (List NodeId)} {seen more : List Sighting} {p : Property}

/-- The first properties of a node are filled, and what is under it was reported. -/
structure Furnished (t : Transformer) (base : Workshop) (id : Nat) (look : Node)
    (done : List (List NodeId)) (w : Workshop) (seen : List Sighting) : Prop where
  trusted : t.Trusted w
  issues : w.issues = base.issues ++ seen.map Sighting.issue
  tended : ∃ parts, base.world.forest.Tended id look done parts w.world.forest
  lists : w.world.forest.Lists done.flatten (seen.map (·.node))

theorem furnished_nil (hl : look.Bare) (hw : t.Trusted w)
    (hn : w.world.forest.node? id = some look) : t.Furnished w id look [] w [] where
  trusted := hw
  issues := (List.append_nil _).symm
  tended := ⟨[], Forest.tended_nil hl hn⟩
  lists := Forest.lists_nil _

/-- What was made for a property is stored there, or too much for it. -/
theorem yields_store (hl : look.Bare) (hid : id < base.world.forest.size)
    (hp : look.descriptor.properties[done.length]? = some p)
    (h : t.Furnished base id look done w seen) {content : Portion NodeId}
    (hmade : t.Grown (some id) w w₁ content.toList more) (tell : Failure → TransformError)
    (content' : Portion NodeId) (hcontent : content'.toList = content.toList) :
    (Work.explain tell (storeBySchema p.name id content')).Yields w₁ fun _ w₂ =>
      ∃ ids, t.Furnished base id look (done ++ [ids]) w₂ (seen ++ more) := by
  obtain ⟨parts, htended⟩ := h.tended
  obtain ⟨ds, hplaced⟩ := hmade.placed
  have hkept := htended.extends hid hplaced.keeps
  have hfor : MadeFor w₁.world.forest id content.toList :=
    forall_of_forall₂ hplaced.realized fun _ _ hr => hr.exists_node?
  cases hfits : p.refuses content.toList.length with
  | none =>
    obtain ⟨k, hstore, hk⟩ := outcome_storeBySchema_ok hl hp hkept.node hkept.typed hkept.contents
      hfor (htended.nodup_append hplaced) hcontent hfits
    obtain ⟨hchild, hroom⟩ := refuses_eq_none_iff.mp hfits
    refine yields_explain (yields_of_outcome hstore ⟨content.toList, ?_⟩) tell
    refine ⟨⟨hmade.trusted.notes, hmade.trusted.registry⟩, ?_, ⟨parts ++ [ds], ?_⟩, ?_⟩
    · show w₁.issues = _
      rw [hmade.issues, h.issues, List.append_assoc, List.map_append]
    · exact htended.fill hl hid hp (fun hne => hchild (by simpa using hne)) hroom hplaced hk
    · rw [List.map_append]
      exact htended.lists_fill hid hplaced hk h.lists hmade.lists
  | some o =>
    obtain ⟨e, w₂, hstore⟩ := outcome_storeBySchema_error hl hp hkept.node hkept.typed hfor
      hcontent hfits
    exact yields_explain (yields_of_failure hstore) tell

variable (hf : t.factories.get? f.sourceType = some f) (hwired : f.Wired) (hmake : t.Reports make)
include hf hwired hmake

/-- A property gets what its wiring reads. -/
theorem yields_watchProperty (hl : look.Bare) (hid : id < base.world.forest.size)
    (hp : look.descriptor.properties[done.length]? = some p)
    (h : t.Furnished base id look done w seen) (effective : Source) :
    (watchProperty make f id look.qualifiedName effective p).Yields w fun more w' =>
      ∃ ids, t.Furnished base id look (done ++ [ids]) w' (seen ++ more) := by
  obtain ⟨wired, hfind, hknows⟩ :=
    outcome_findWiring_of_knows h.trusted.notes hf look.qualifiedName p.name
  have hw₁ : t.Trusted { w with wired } := ⟨hknows, h.trusted.registry⟩
  have h₁ : t.Furnished base id look done { w with wired } seen :=
    ⟨hw₁, h.issues, h.tended, h.lists⟩
  refine yields_after hfind ?_
  cases hv : wiringOf f look.qualifiedName p.name with
  | none =>
    obtain ⟨parts, htended⟩ := h₁.tended
    refine yields_pure ⟨[], hw₁, ?_, ⟨parts ++ [[]], htended.pass hl hp⟩, ?_⟩
    · rw [List.append_nil]
      exact h₁.issues
    · simpa using h₁.lists
  | some v =>
    obtain ⟨hset, hname⟩ := hwired.wiringOf (hl.plain p (List.mem_of_getElem? hp)) hv
    refine yields_after outcome_forest ?_
    dsimp only
    split
    · exact yields_throw _
    · next raw _ =>
      refine yields_bind (yields_watchRaw hmake hw₁ raw) fun made w₂ hmade => ?_
      obtain ⟨content, more⟩ := made
      simp only [store, hset, hname]
      have hstore := yields_store hl hid hp h₁ hmade
        (.childWiring look.qualifiedName.display p.name)
      cases content with
      | absent => exact yields_bind (hstore _ rfl) fun _ _ hstored => yields_pure hstored
      | many cs => exact yields_bind (hstore _ rfl) fun _ _ hstored => yields_pure hstored
      | one c =>
        dsimp only
        split
        · exact yields_bind (hstore _ rfl) fun _ _ hstored => yields_pure hstored
        · exact yields_bind (hstore _ rfl) fun _ _ hstored => yields_pure hstored

/-- Properties get their content in their order. -/
theorem yields_watchProperties (hl : look.Bare) (hid : id < base.world.forest.size)
    {ps : List Property} (hps : look.descriptor.properties.drop done.length = ps)
    (h : t.Furnished base id look done w seen) (effective : Source) :
    (watchProperties make f id look.qualifiedName effective ps).Yields w fun more w' =>
      ∃ done, t.Furnished base id look done w' (seen ++ more) := by
  induction ps generalizing done seen w with
  | nil => exact yields_pure ⟨done, by simpa using h⟩
  | cons p ps ih =>
    have hp : look.descriptor.properties[done.length]? = some p := by
      rw [← List.head?_drop, hps]
      rfl
    refine yields_bind (yields_watchProperty hf hwired hmake hl hid hp h effective)
      fun first w₁ ⟨ids, h₁⟩ => ?_
    have hnext : look.descriptor.properties.drop (done ++ [ids]).length = ps := by
      rw [List.length_append, List.length_singleton, ← List.drop_drop, hps]
      rfl
    refine yields_bind (ih hnext h₁) fun later w₂ ⟨done', h₂⟩ => yields_pure ⟨done', ?_⟩
    rwa [← List.append_assoc]

/-- All that is under a node is reported, and then the node is in its place in the walk. -/
theorem yields_watchChildren (hl : look.Bare) (hw : t.Trusted w)
    (hn : w.world.forest.node? id = some look) (s : Source) :
    (t.watchChildren make f s id).Yields w fun seen w' =>
      ∃ done, t.Furnished w id look done w' seen := by
  refine yields_after outcome_forest ?_
  simp only [hn]
  have h := yields_watchProperties hf hwired hmake hl (Forest.lt_size_of_node? hn) rfl
    (furnished_nil hl hw hn) (t.hooks.wiringSource w.world.forest id s)
  simpa using h

omit hf hwired hmake in
theorem exists_looks {g : Forest} {ids : List NodeId}
    (h : ∀ id ∈ ids, ∃ look, g.node? id = some look ∧ look.Bare) : ∃ looks, g.Looks ids looks := by
  induction ids with
  | nil => exact ⟨[], .nil⟩
  | cons id rest ih =>
    obtain ⟨hfirst, hrest⟩ := List.forall_mem_cons.mp h
    obtain ⟨look, hlook⟩ := hfirst
    obtain ⟨looks, hlooks⟩ := ih hrest
    exact ⟨look :: looks, .cons hlook hlooks⟩

omit hf hwired hmake in
/-- Nodes without an origin get one. -/
theorem outcome_originate {ids : List NodeId} (hdistinct : ids.Nodup)
    (hbare : ∀ id ∈ ids, ∃ look, w.world.forest.node? id = some look ∧ look.Bare)
    (origin : Option Origin) :
    ∃ g looks, (forNodes (fun id => modifyForest fun forest =>
        if ((forest.node? id).bind (·.origin)).isNone then forest.setOrigin id origin
        else forest) ids).outcome w = (.ok (), w.withWorld w.world.registry g) ∧
      g.ExtendsBut w.world.forest ids ∧ g.Looks ids looks := by
  choose change hkeeps hchange using fun id => Forest.exists_originate id origin
  obtain ⟨g, hrun, hsize, hnode⟩ := outcome_forNodes_modify (w := w)
    (fun id _ g => hchange id g) hdistinct
  have hstill : ∀ id ∈ ids, ∃ look, g.node? id = some look ∧ look.Bare := by
    intro id hid
    obtain ⟨look, hlook, hl⟩ := hbare id hid
    exact ⟨_, by rw [hnode, if_pos hid, hlook, Option.map_some], hkeeps id look hl⟩
  obtain ⟨looks, hlooks⟩ := exists_looks hstill
  exact ⟨g, looks, hrun, Forest.extendsBut_of_changes hsize hnode, hlooks⟩

/-- The nodes of a constructor get their children one after the other. -/
theorem yields_watchNodes {ids : List NodeId} {looks : List Node} (hw : t.Trusted w)
    (hdistinct : ids.Nodup) (hlooks : w.world.forest.Looks ids looks) (s : Source) :
    (t.watchNodes make f s ids).Yields w fun seen w' =>
      t.Trusted w' ∧ w'.issues = w.issues ++ seen.map Sighting.issue ∧
        w'.world.forest.ExtendsBut w.world.forest ids ∧
        (∃ ds, List.Forall₂ (w'.world.forest.Realizes w.world.forest.size none) ids ds) ∧
        w'.world.forest.Lists ids (seen.map (·.node)) := by
  induction looks generalizing ids w with
  | nil =>
    obtain rfl : ids = [] := by simpa [Forest.Looks] using hlooks
    refine yields_pure ⟨hw, (List.append_nil _).symm, Forest.Extends.but (.refl _) _, ?_, ?_⟩
    · exact ⟨[], .nil⟩
    · exact Forest.lists_nil _
  | cons look looks ih =>
    obtain ⟨id, rest, ⟨hn, hl⟩, hrest, rfl⟩ := List.forall₂_cons_right_iff.mp hlooks
    obtain ⟨hid, hrestDistinct⟩ := List.nodup_cons.mp hdistinct
    refine yields_bind (yields_watchChildren hf hwired hmake hl hw hn s) ?_
    rintro seen w₁ ⟨done, hfirst⟩
    obtain ⟨parts, htended⟩ := hfirst.tended
    have hrest₁ : w₁.world.forest.Looks rest looks := by
      refine (forall₂_mem hrest).imp ?_
      rintro c look' ⟨hmem, hc, hl'⟩
      refine ⟨?_, hl'⟩
      have hne : c ≠ id := ne_of_mem_of_not_mem hmem hid
      rw [htended.but.older (Forest.lt_size_of_node? hc) (by simpa using hne), hc]
    refine yields_bind (ih hfirst.trusted hrestDistinct hrest₁) ?_
    rintro later w₂ ⟨hw₂, hissues, hbut, ⟨ds, hrealized⟩, hlists⟩
    have hlt := Forest.lt_size_of_node? hn
    -- the later nodes are older than all that is below the first one
    have hold := Forest.Looks.lt_size hrest
    have hfirst₂ := (htended.realizes_but hl hlt hbut hold hid).1
    refine yields_pure ⟨hw₂, ?_, ?_, ⟨.node id look parts :: ds, .cons hfirst₂ ?_⟩, ?_⟩
    · rw [hissues, hfirst.issues, List.append_assoc, List.map_append]
    · exact (htended.but.mono (by simp)).trans (hbut.mono (by simp))
    · exact hrealized.imp fun _ _ hr => hr.mono htended.but.size
    · rw [List.map_append]
      exact htended.lists_cons hl hlt hbut hold hid hfirst.lists hrealized hlists

/-- The nodes of a constructor get origins, children and links. -/
theorem yields_watchComplete {ids : List NodeId} (hw : t.Trusted w) (hdistinct : ids.Nodup)
    (hbare : ∀ id ∈ ids, ∃ look, w.world.forest.node? id = some look ∧ look.Bare) (s : Source)
    (parent : Option NodeId) :
    (t.watchComplete make f s parent ids).Yields w fun made w' =>
      made.1 = ids ∧ t.Trusted w' ∧ w'.issues = w.issues ++ made.2.map Sighting.issue ∧
        w'.world.forest.ExtendsBut w.world.forest ids ∧
        (∃ ds, List.Forall₂ (w'.world.forest.Realizes w.world.forest.size parent) ids ds) ∧
        w'.world.forest.Lists ids (made.2.map (·.node)) := by
  obtain ⟨hfinalize, hskips, hconstructs⟩ := hwired.steps
  unfold watchComplete
  simp only [hfinalize, hskips, hconstructs, Bool.not_false, Bool.and_self, if_true]
  obtain ⟨g, looks, horigins, hbut, hlooks⟩ := outcome_originate hdistinct hbare (t.hooks.origin s)
  refine yields_after horigins ?_
  have hw₁ : t.Trusted (w.withWorld w.world.registry g) := ⟨hw.notes, hw.registry⟩
  refine yields_bind (yields_watchNodes hf hwired hmake hw₁ hdistinct hlooks s)
    fun seen w₂ ⟨hw₂, hissues, hbut₂, ⟨ds, hrealized⟩, hlists⟩ => ?_
  have hold := hlooks.lt_size
  obtain ⟨k, hlinks, hsize, hnode⟩ := outcome_setLinks (w := w₂) parent hdistinct
  have hbut₃ : k.ExtendsBut w₂.world.forest ids := Forest.extendsBut_of_changes hsize hnode
  have hwalks : ∀ c ∈ ids, k.preorder c = w₂.world.forest.preorder c := by
    refine forall_of_forall₂ hrealized fun c d hr => ?_
    refine (hr.preorder_congr ?_ fun j hj hlt => hbut₃.older hlt fun hmem => ?_).2
    · rw [Forest.children, Forest.children, hnode]
      split
      · rw [Option.map_map]
        rfl
      · rfl
    · exact Nat.not_lt.mpr hj (hold j hmem)
  refine yields_after hlinks (yields_pure ?_)
  refine ⟨rfl, ⟨hw₂.notes, hw₂.registry⟩, hissues, hbut.trans (hbut₂.trans hbut₃), ⟨ds, ?_⟩,
    hlists.congr hwalks⟩
  exact (Forest.forall₂_relink hrealized hold hnode).imp fun _ _ hr => hr.mono hbut.size

end Wiring

section Making
variable {t : Transformer} {w : Workshop}

/-- What a resolution leaves is at most a note on the source's type. -/
theorem yields_resolveFactory (hw : t.Trusted w) (s : Source) :
    (t.resolveFactory s).Yields w fun found w₁ => t.Trusted w₁ ∧ w₁.world = w.world ∧
      w₁.issues = w.issues ∧ ∀ f ∈ found, ∃ name, t.factories.get? name = some f := by
  intro found w₁ hfound
  have hserves : ∀ f ∈ found, ∃ name, t.factories.get? name = some f := by
    rintro f rfl
    exact exists_name_of_resolveFactory hfound
  cases hkey : w.resolved.get? (w.world.forest.sourceType s) with
  | some key =>
    rw [resolveFactory_of_noted hkey] at hfound
    cases hfound
    exact ⟨hw, rfl, rfl, hserves⟩
  | none =>
    rw [resolveFactory_of_new hkey] at hfound
    cases hfound
    exact ⟨⟨hw.notes, hw.registry⟩, rfl, rfl, hserves⟩

/-- A placeholder is reported. -/
theorem yields_watchUnmapped (hw : t.Trusted w) (s : Source) (parent : Option NodeId) :
    (do
      let before ← Work.forest
      let id ← t.makePlaceholder s parent
      return ([id], [⟨id, s, before, ← Work.forest⟩]) :
        Work TransformError (List NodeId × List Sighting)).Yields w fun made w' =>
      t.Grown parent w w' made.1 made.2 := by
  refine yields_after outcome_forest ?_
  refine yields_bind (yields_makePlaceholder hw.registry s parent) fun id w₁ ⟨hadds, hnotes⟩ => ?_
  refine yields_after outcome_forest (yields_pure ?_)
  refine grown_of_adds hadds ?_ (congrArg Notes.issues hnotes) (List.Sublist.refl _)
  rw [hnotes]
  exact hw.notes

/-- What a constructor that failed left behind is dropped, and nothing is reported. -/
theorem yields_watchFailed {w₁ : Workshop} (hw : t.Trusted w₁) (hissues : w₁.issues = w.issues)
    (hforest : w₁.world.forest.Extends w.world.forest) (s : Source) (parent : Option NodeId)
    (cause : Failure) :
    (do
      let forest ← Work.forest
      if t.config.allowGenericNode then
        Work.setForest (forest.collectSince w.world.forest.size [])
        return ([← t.makeError s parent cause], [])
      else throw (.construction (forest.sourceType s) cause) :
        Work TransformError (List NodeId × List Sighting)).Yields w₁ fun made w' =>
      t.Grown parent w w' made.1 made.2 := by
  refine yields_after outcome_forest ?_
  have hdropped := hforest.collectSince []
  generalize w₁.world.forest.collectSince w.world.forest.size [] = dropped at hdropped ⊢
  split
  · refine yields_after (outcome_setForest dropped) ?_
    refine yields_bind (yields_makeError (w := w₁.withWorld w₁.world.registry dropped) hw.registry
      s parent cause) fun id w₂ ⟨hadds, hnotes⟩ => yields_pure ?_
    have hissues₂ : w₂.issues = w₁.issues := congrArg Notes.issues hnotes
    have herror : t.Grown parent (w₁.withWorld w₁.world.registry dropped) w₂ [id] [] := by
      refine grown_of_adds hadds ?_ ?_ (List.nil_sublist _)
      · rw [hnotes]
        exact hw.notes
      · rw [hissues₂, List.map_nil, List.append_nil]
        rfl
    exact herror.of_extends hissues hdropped
  · exact yields_throw _

variable (hkeyed : ∀ name f, t.factories.get? name = some f → f.sourceType = name)
  (hwired : ∀ name f, t.factories.get? name = some f → f.Wired)
  (hfresh : ∀ name f, t.factories.get? name = some f → f.MakesFresh)
include hkeyed hwired hfresh

/-- Whatever is made from a source, at every depth, is reported. -/
theorem reports_watchWithin (depth : Nat) : t.Reports (t.watchWithin depth) := by
  induction depth with
  | zero => exact fun s parent w _ => yields_throw _
  | succ depth ih =>
    intro s parent w₀ hw₀
    refine yields_bind (yields_resolveFactory hw₀ s)
      fun found w ⟨hw, hworld, hissues, hserves⟩ => ?_
    suffices h : Yields _ w fun (made : List NodeId × List Sighting) w' =>
        t.Grown parent w w' made.1 made.2 from
      fun made w' hmade => (h hmade).of_extends hissues (hworld ▸ .refl _)
    cases found with
    | none => exact yields_watchUnmapped hw s parent
    | some f =>
      obtain ⟨name, hname⟩ := hserves f rfl
      have hf : t.factories.get? f.sourceType = some f := by rwa [hkeyed name f hname]
      obtain ⟨hnotes, hkeeps, hregistry, hmakes⟩ := hfresh name f hname
        (transformChild (t.makeWithin depth) f) s w hw.registry
      cases hbuilt : (f.construct (transformChild (t.makeWithin depth) f) s).outcome w with
      | mk built w₁ =>
        rw [hbuilt] at hnotes hkeeps hregistry hmakes
        dsimp only at hnotes hkeeps hregistry hmakes
        have hw₁ : t.Trusted w₁ := ⟨hnotes ▸ hw.notes, hregistry⟩
        have hissues₁ : w₁.issues = w.issues := congrArg Notes.issues hnotes
        have hattempt : (attempt (f.construct (transformChild (t.makeWithin depth) f) s) :
            Work TransformError _).outcome w = (.ok built, w₁) := by
          rw [outcome_attempt, hbuilt]
        refine yields_after outcome_forest (yields_after hattempt ?_)
        cases built with
        | ok ids =>
          obtain ⟨hdistinct, hbare⟩ := hmakes ids rfl
          have hnew : ∀ id ∈ ids, w.world.forest.size ≤ id := fun id hid => (hbare id hid).1
          rintro ⟨ids', seen⟩ w₂ hmade
          obtain ⟨rfl, hw₂, hissues₂, hbut, ⟨ds, hrealized⟩, hlists⟩ :=
            yields_watchComplete hf (hwired name f hname) ih hw₁ hdistinct
              (fun id hid => (hbare id hid).2) s parent hmade
          refine ⟨hw₂, by rw [hissues₂, hissues₁], ⟨ds, ?_⟩, hlists⟩
          exact ⟨hbut.extends hkeeps hnew, hdistinct, hnew,
            hrealized.imp fun _ _ hr => hr.mono hkeeps.size⟩
        | error cause => exact yields_watchFailed hw₁ hissues₁ hkeeps s parent cause

end Making

/-- The engine and the watched engine make the same. -/
theorem exists_seen {t : Transformer} {depth : Nat} {s : Source} {parent : Option NodeId}
    {w w' : Workshop} {ids : List NodeId}
    (h : (t.makeWithin depth s parent).outcome w = (.ok ids, w')) :
    ∃ seen, (t.watchWithin depth s parent).outcome w = (.ok (ids, seen), w') := by
  rw [← watchWithin_nodes, map_eq_pure_bind] at h
  cases hwatched : (t.watchWithin depth s parent).outcome w with
  | mk answer w₁ =>
    cases answer with
    | ok made =>
      rw [outcome_bind_ok hwatched] at h
      obtain ⟨nodes, seen⟩ := made
      cases h
      exact ⟨seen, rfl⟩
    | error e =>
      rw [outcome_bind_error hwatched] at h
      cases h

/-- If a transformation gives one node, that is because the engine made just this one. -/
theorem makeWithin_of_transform {t : Transformer} {depth : Nat} {s : Source}
    {parent : Option NodeId} {w w' : Workshop} {id : NodeId}
    (h : (t.transform depth (.one s) parent).outcome w = (.ok (some id), w')) :
    (t.makeWithin depth s parent).outcome w = (.ok [id], w') := by
  cases hmade : (t.makeWithin depth s parent).outcome w with
  | mk answer w₁ =>
    cases answer with
    | error e =>
      rw [transform, transformIntoNodes, outcome_bind_error hmade] at h
      cases h
    | ok ids =>
      rw [transform, transformIntoNodes, outcome_bind_ok hmade] at h
      match ids with
      | [] => cases h
      | [c] =>
        cases h
        rfl
      | _ :: _ :: _ => cases h

/-- One issue for each node that stands for a source that nothing maps, and no other issue: if a
transformation succeeds with a node, then the nodes that the watched engine saw put in the place of
such sources are in the tree of this node, each of them once, and in the order of the walk through
the tree the issues that the transformation added name the types and positions of their sources.
Constructors that fail add none. -/
theorem transform_reports {t : Transformer} {w w' : Workshop} (hstate : Reached t w)
    (hwired : ∀ name f, t.factories.get? name = some f → f.Wired)
    (hfresh : ∀ name f, t.factories.get? name = some f → f.MakesFresh)
    (hregistry : w.world.registry.All Descriptor.PlainNamed) {depth : Nat} {s : Source}
    {parent : Option NodeId} {id : NodeId}
    (hmade : (t.transform depth (.one s) parent).outcome w = (.ok (some id), w')) :
    ∃ seen, (t.watchWithin depth s parent).outcome w = (.ok ([id], seen), w') ∧
      (w'.world.forest.walk id).Nodup ∧
      (w'.world.forest.walk id).filter (· ∈ seen.map (·.node)) = seen.map (·.node) ∧
      w'.issues = w.issues ++ seen.map Sighting.issue := by
  obtain ⟨hkeyed, hknows⟩ := hstate.knowsWirings
  obtain ⟨seen, hwatched⟩ := exists_seen (makeWithin_of_transform hmade)
  have hgrown := reports_watchWithin hkeyed hwired hfresh depth s parent w ⟨hknows, hregistry⟩
    hwatched
  obtain ⟨ds, hplaced⟩ := hgrown.placed
  obtain ⟨d, -, hrealized, -⟩ := List.forall₂_cons_left_iff.mp hplaced.realized
  have hlists := hgrown.lists
  refine ⟨seen, hwatched, ?_, ?_, hgrown.issues⟩ <;> rw [hrealized.grounded.walk_eq]
  · simpa using hlists.nodup
  · exact filter_eq_of_sublist (by simpa using hlists.sublist) (by simpa using hlists.nodup)

/-- A constructor that puts nodes without children into the next cells. -/
theorem makesFresh_of_allocates {f : Factory} {looks : NodeId → List Node}
    (h : f.Allocates looks) : f.MakesFresh := by
  intro supply s w hregistry
  simp only [h.made]
  refine ⟨rfl, Forest.extends_allocAll _ _, hregistry, fun ids hids => ?_⟩
  obtain rfl := Except.ok.inj hids
  have hlooks : ∀ id ∈ List.range' w.world.forest.size (looks w.world.forest.size).length,
      ∃ look, (w.world.forest.allocAll (looks w.world.forest.size)).node? id = some look ∧
        look.Bare :=
    forall_of_forall₂ (h.looks_allocAll _) fun _ look hn => ⟨look, hn⟩
  exact ⟨List.nodup_range', fun id hid => ⟨(List.mem_range'_1.mp hid).1, hlooks id hid⟩⟩

/-- The lid of a box and the coin in it are reported, each as what it is. -/
theorem coinBox_reports :
    ∃ seen w', (boxTransformer.transform 3 (.one coinBox) none).outcome {} = (.ok (some 0), w') ∧
      (boxTransformer.watchWithin 3 coinBox none).outcome {} = (.ok ([0], seen), w') ∧
      (w'.world.forest.walk 0).Nodup ∧
      (w'.world.forest.walk 0).filter (· ∈ seen.map (·.node)) = seen.map (·.node) ∧
      w'.issues = seen.map Sighting.issue ∧
      seen.map (·.sourceType) = ["Lid", "Coin"] := by
  have hstate : Reached boxTransformer {} :=
    ((Reached.start {} {} {}).register boxFactory).register keyFactory
  have hwired : ∀ name f, boxTransformer.factories.get? name = some f → f.Wired := fun _ _ hf =>
    (plain_boxTransformer {}).wired hf
  have hfresh : ∀ name f, boxTransformer.factories.get? name = some f → f.MakesFresh := by
    intro name f hf
    rcases get?_boxTransformer hf with ⟨-, rfl⟩ | ⟨-, rfl⟩
    · exact makesFresh_of_allocates allocates_boxFactory
    · exact makesFresh_of_allocates allocates_keyFactory
  have hanswer : ((boxTransformer.transform 3 (.one coinBox) none).outcome {}).1.toOption =
      some (some 0) := by decide +kernel
  have htypes : (((boxTransformer.watchWithin 3 coinBox none).outcome {}).1.map
      (·.2.map (·.sourceType))).toOption = some ["Lid", "Coin"] := by decide +kernel
  obtain ⟨w', hmade⟩ := exists_outcome_of_toOption hanswer
  obtain ⟨seen, hseen, hnodup, hwalk, hissues⟩ := transform_reports hstate hwired hfresh
    (Registry.all_empty _ _) hmade
  rw [hseen] at htypes
  exact ⟨seen, w', hmade, hseen, hnodup, hwalk, hissues, Option.some.inj htypes⟩

end Transformer

end Arbor
