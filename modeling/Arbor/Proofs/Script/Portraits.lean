import Arbor.Proofs.Script.Factories

/-!
Which node stands for a rule node. The constructor of a factory does the same in every workshop, so
one run of it tells the type of the node and the data in its slots; where it fails, an error node
stands for the rule node.
-/
namespace Arbor.Script
open Transformer Mapping

section General
variable {n : ParseNode} {d : Descriptor} {data slots : List Slot} {k : Kind} {f : Factory}
  {build : Source → Work Failure NodeId}

theorem withWorld_alloc_inj {w : Workshop} {r r' : Registry} {m m' : Node}
    (h : w.withWorld r (w.world.forest.alloc m).2 = w.withWorld r' (w.world.forest.alloc m').2) :
    m = m' := by
  have hforest : (w.world.forest.alloc m).2 = (w.world.forest.alloc m').2 :=
    congrArg (·.world.forest) h
  have hnode := congrArg (·.node? w.world.forest.size) hforest
  simpa [Forest.node?_alloc] using hnode

theorem depicts_of_creates (h : lenient.Depicts Serves n d data)
    (hf : lenient.factories.get? n.rule.name = some f)
    (hconstruct : f.construct = fun _ s => return [← build s])
    (hc : ∀ w : Workshop, Serves w.world.registry → Creates (build (.tree n)) k slots w) :
    d.Describes k ∧ data = slots.map Slot.bare := by
  obtain ⟨g, supply, w, hg, hw, hrun⟩ := h
  obtain rfl : f = g := Option.some.inj (hf.symm.trans hg)
  obtain ⟨r, m, hmade, -, -, hd, rfl⟩ := hc w hw
  have hdone : (f.construct supply (.tree n)).outcome w =
      (.ok [w.world.forest.size], w.withWorld r (w.world.forest.alloc m).2) := by
    rw [hconstruct]
    exact Work.outcome_bind_ok hmade _
  rcases hrun with ⟨r', m', hmade', rfl, rfl⟩ | ⟨⟨cause, hfailed, -⟩, -⟩
  · obtain rfl := withWorld_alloc_inj (Prod.mk.inj (hdone.symm.trans hmade')).2
    exact ⟨hd, rfl⟩
  · rw [hdone] at hfailed
    exact absurd (Prod.mk.inj hfailed).1 (by simp)

theorem depicts_of_fails (h : lenient.Depicts Serves n d data)
    (hf : lenient.factories.get? n.rule.name = some f)
    (hconstruct : f.construct = fun _ s => return [← build s])
    (hfails : ∀ w : Workshop, Fails (build (.tree n)) w) : d.Describes .errorNode := by
  obtain ⟨g, supply, w, hg, -, hrun⟩ := h
  obtain rfl : f = g := Option.some.inj (hf.symm.trans hg)
  obtain ⟨cause, hfailed⟩ := hfails w
  have hdone : (f.construct supply (.tree n)).outcome w = (.error cause, w) := by
    rw [hconstruct]
    exact Work.outcome_bind_error hfailed _
  rcases hrun with ⟨r, m, hmade, -, -⟩ | ⟨-, r, r', hr, hregister⟩
  · rw [hdone] at hmade
    exact absurd (Prod.mk.inj hmade).1 (by simp)
  · obtain ⟨e, r'', hregister', he, -⟩ := register_errorNode hr
    obtain rfl : d = e := by
      rw [hregister] at hregister'
      simpa using (Prod.mk.inj hregister').1
    exact he

end General

section Rules
variable {n : ParseNode} {d : Descriptor} {data : List Slot} (h : lenient.Depicts Serves n d data)
include h

theorem portrait_compilationUnit (hrule : n.rule = Rule.compilationUnit) :
    d.Describes Kinds.compilationUnit ∧ data = [.absent] :=
  depicts_of_creates h (by rw [hrule]; rfl) rfl fun _ hw =>
    creates_create hw (k := Kinds.compilationUnit) (by decide)

theorem portrait_displayStatement (hrule : n.rule = Rule.displayStatement) :
    d.Describes Kinds.displayStatement ∧ data = [.absent] :=
  depicts_of_creates h (by rw [hrule]; rfl) rfl fun _ hw =>
    creates_create hw (k := Kinds.displayStatement) (by decide)

theorem portrait_sumExpression (hrule : n.rule = Rule.sumExpression) :
    d.Describes Kinds.sumExpression ∧ data = [.absent, .absent] :=
  depicts_of_creates h (by rw [hrule]; rfl) rfl fun _ hw =>
    creates_create hw (k := Kinds.sumExpression) (by decide)

theorem portrait_setStatement (hrule : n.rule = Rule.setStatement) {target : Token}
    (htarget : n.tokenOf? identifier = some target) :
    d.Describes Kinds.setStatement ∧ data = [.value (.string target.text), .absent] :=
  depicts_of_creates h (by rw [hrule]; rfl) rfl fun _ hw => creates_setStatement hw htarget

theorem portrait_inputDeclaration (hrule : n.rule = Rule.inputDeclaration) {name type : Token}
    (hname : n.tokenOf? identifier = some name)
    (htype : typeKeywords.findSome? n.tokenOf? = some type) :
    d.Describes Kinds.inputDeclaration ∧
      data = [.value (.string name.text), .value (.string type.text)] :=
  depicts_of_creates h (by rw [hrule]; rfl) rfl fun _ hw =>
    creates_inputDeclaration hw hname htype

theorem portrait_intLiteral (hrule : n.rule = Rule.intLiteral) {i : Int}
    (hread : Integer64.read n.text = .ok i) :
    d.Describes Kinds.intLiteral ∧ data = [.value (.integer i)] :=
  depicts_of_creates h (by rw [hrule]; rfl) rfl fun _ hw => creates_intLiteral hw hread

theorem portrait_intLiteral_of_error (hrule : n.rule = Rule.intLiteral) {e : NumberError}
    (hread : Integer64.read n.text = .error e) : d.Describes .errorNode :=
  depicts_of_fails h (by rw [hrule]; rfl) rfl fun _ => fails_intLiteral hread

theorem portrait_decLiteral (hrule : n.rule = Rule.decLiteral) {x : Binary64}
    (hread : Binary64.read n.text = .ok x) :
    d.Describes Kinds.decLiteral ∧ data = [.value (.decimal x)] :=
  depicts_of_creates h (by rw [hrule]; rfl) rfl fun _ hw => creates_decLiteral hw hread

theorem portrait_decLiteral_of_error (hrule : n.rule = Rule.decLiteral) {e : NumberError}
    (hread : Binary64.read n.text = .error e) : d.Describes .errorNode :=
  depicts_of_fails h (by rw [hrule]; rfl) rfl fun _ => fails_decLiteral hread

theorem portrait_stringLiteral (hrule : n.rule = Rule.stringLiteral) :
    d.Describes Kinds.stringLiteral ∧ data = [.value (.string (unquoted n.text))] :=
  depicts_of_creates h (by rw [hrule]; rfl) rfl fun _ hw => creates_stringLiteral hw

theorem portrait_valueReference (hrule : n.rule = Rule.valueReference) :
    d.Describes Kinds.valueReference ∧ data = [.reference ⟨n.text, none⟩] :=
  depicts_of_creates h (by rw [hrule]; rfl) rfl fun _ hw => creates_valueReference hw

end Rules

end Arbor.Script
