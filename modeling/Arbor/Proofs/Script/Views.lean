import Arbor.Proofs.Script.Names
import Arbor.Proofs.Script.Programs

/-!
Programs read off their nodes. A reader asks a node for its kind, and then for the attributes, the
reference or the children that a node of this kind has. What it gets from a tree that mirrors a
parse tree is told by the rule nodes alone.
-/
namespace Arbor

section Slots
variable {f : Forest} {R : ParseNode → Descriptor → List Slot → Prop} {parent : Option Nat}
  {id : NodeId} {n : ParseNode} {m : Node} {i : Nat} {p q : Property}

theorem Property.Admits.nodes_of_single {s : Slot} (h : p.Admits s) (hsingle : p.multiple = false) :
    s.nodes = [] ∨ ∃ c, s = .child c := by
  cases s with
  | child c => exact .inr ⟨c, rfl⟩
  | children cs =>
    have hmany := h.2
    simp [hsingle] at hmany
  | _ => exact .inl rfl

namespace Node

theorem children_of_one (hp : m.descriptor.properties = [p]) (hk : p.isChild) (ht : m.Typed) :
    m.children = (m.slot 0).nodes := by
  have hlength := ht.length_slots
  rw [hp] at hlength
  obtain ⟨s, hs⟩ := List.length_eq_one_iff.mp hlength
  simp [children, properties, slot, hp, hs, hk]

theorem children_of_two (hp : m.descriptor.properties = [p, q]) (ht : m.Typed) :
    m.children = (if p.isChild then (m.slot 0).nodes else []) ++
      if q.isChild then (m.slot 1).nodes else [] := by
  have hlength := ht.length_slots
  rw [hp] at hlength
  obtain ⟨s, t, hs⟩ := List.length_eq_two.mp hlength
  simp [children, properties, slot, hp, hs]

/-- Two children in two slots that hold one each. -/
theorem slots_of_two (hp : m.descriptor.properties = [p, q]) (ht : m.Typed) (hk : p.isChild)
    (hk' : q.isChild) (hsingle : p.multiple = false) (hsingle' : q.multiple = false)
    {x y : NodeId} (h : m.children = [x, y]) : (m.slot 0).nodes = [x] ∧ (m.slot 1).nodes = [y] := by
  rw [children_of_two hp ht, if_pos hk, if_pos hk'] at h
  have hfirst := (ht.slot (i := 0) (by rw [hp]; rfl)).nodes_of_single hsingle
  have hsecond := (ht.slot (i := 1) (by rw [hp]; rfl)).nodes_of_single hsingle'
  rcases hfirst with hnone | ⟨c, hc⟩ <;> rcases hsecond with hnone' | ⟨d, hd⟩ <;>
    simp_all [Slot.nodes]

end Node

namespace Forest

/-- The node in a child slot that is not a collection. -/
theorem child_of_slot (hnode : f.node? id = some m) (hm : m.StandsFor R parent n)
    (hp : m.descriptor.properties[i]? = some p) (hk : p.isChild) (hsingle : p.multiple = false) :
    f.child id p.name = .ok (m.slot i).nodes.head? := by
  have hslot := Node.singleChild_of_getElem? hm.typed hm.names hp hk hsingle
  simp only [child, get, hnode, hslot, bind, Except.bind, pure, Except.pure]
  rcases (hm.typed.slot hp).nodes_of_single hsingle with hnone | ⟨c, hc⟩
  · cases hs : m.slot i <;> simp_all [Slot.nodes]
  · rw [hc]
    rfl

theorem childrenOf_of_slot (hnode : f.node? id = some m) (hm : m.StandsFor R parent n)
    (hp : m.descriptor.properties[i]? = some p) (hk : p.isChild) (hmany : p.multiple) :
    f.childrenOf id p.name = .ok (m.slot i).nodes := by
  have hslot := Node.childCollection_of_getElem? hm.typed hm.names hp hk hmany
  have hadmits := hm.typed.slot hp
  simp only [childrenOf, get, hnode, hslot, bind, Except.bind, pure, Except.pure]
  cases hs : m.slot i <;> simp_all [Slot.nodes, Property.Admits]

end Forest

end Slots

namespace Script
open Transformer Mapping

/-- An expression as its nodes hold it. -/
inductive ExpressionView where
  | integer (n : Int)
  | decimal (x : Binary64)
  | string (s : String)
  | name (x : String)
  | sum (left right : ExpressionView)
deriving DecidableEq

/-- A statement as its nodes hold it. -/
inductive StatementView where
  | set (x : String) (value : ExpressionView)
  | display (value : ExpressionView)
  | input (x type : String)
deriving DecidableEq

section Readers
variable (f : Forest)

/-- Reads a literal or the use of a name. -/
def viewOperand (id : NodeId) : Option ExpressionView :=
  if f.isKind id Kinds.intLiteral then
    match f.property id "value" with
    | .ok (some (.integer n)) => some (.integer n)
    | _ => none
  else if f.isKind id Kinds.decLiteral then
    match f.property id "value" with
    | .ok (some (.decimal x)) => some (.decimal x)
    | _ => none
  else if f.isKind id Kinds.stringLiteral then
    match f.property id "value" with
    | .ok (some (.string s)) => some (.string s)
    | _ => none
  else if f.isKind id Kinds.valueReference then
    match f.reference id "variable" with
    | .ok (some r) => some (.name r.name)
    | _ => none
  else none

/-- Reads an expression through at most `fuel` levels of sums. -/
def viewExpression : Nat → NodeId → Option ExpressionView
  | 0, _ => none
  | fuel + 1, id =>
      if f.isKind id Kinds.sumExpression then
        match f.child id "left", f.child id "right" with
        | .ok (some left), .ok (some right) =>
            match viewExpression fuel left, viewExpression fuel right with
            | some l, some r => some (.sum l r)
            | _, _ => none
        | _, _ => none
      else viewOperand f id

/-- Reads the expression in the child `value`. -/
def viewValue (id : NodeId) : Option ExpressionView :=
  match f.child id "value" with
  | .ok (some value) => viewExpression f f.size value
  | _ => none

def viewStatement (id : NodeId) : Option StatementView :=
  if f.isKind id Kinds.setStatement then
    match f.property id "variable", viewValue f id with
    | .ok (some (.string x)), some value => some (.set x value)
    | _, _ => none
  else if f.isKind id Kinds.displayStatement then (viewValue f id).map .display
  else if f.isKind id Kinds.inputDeclaration then
    match f.property id "name", f.property id "type" with
    | .ok (some (.string x)), .ok (some (.string type)) => some (.input x type)
    | _, _ => none
  else none

def viewProgram (root : NodeId) : Option (List StatementView) :=
  if f.isKind root Kinds.compilationUnit then
    match f.childrenOf root "statements" with
    | .ok ids => ids.mapM (viewStatement f)
    | .error _ => none
  else none

end Readers

/-- Whatever mirrors the rule node reads as this expression. -/
def Shows (n : ParseNode) (v : ExpressionView) : Prop :=
  ∀ ⦃f : Forest⦄ ⦃parent : Option Nat⦄ ⦃id fuel : Nat⦄,
    f.Mirrors (lenient.Depicts Serves) parent id n → n.nodeCount ≤ fuel →
      viewExpression f fuel id = some v

/-- Whatever mirrors the rule node reads as this statement, in a forest with room for its tree. -/
def ShowsStatement (n : ParseNode) (v : StatementView) : Prop :=
  ∀ ⦃f : Forest⦄ ⦃parent : Option Nat⦄ ⦃id : Nat⦄, f.Mirrors (lenient.Depicts Serves) parent id n →
    n.nodeCount ≤ f.size → viewStatement f id = some v

section Operands
variable {n : ParseNode}

theorem shows_of_viewOperand {v : ExpressionView} {j : Kind} (hj : j ∈ nodeKinds)
    (hne : j ≠ Kinds.sumExpression)
    (hdescribes : ∀ d data, lenient.Depicts Serves n d data → d.Describes j)
    (hview : ∀ (f : Forest) (parent : Option Nat) (id : Nat) (m : Node), f.node? id = some m →
      m.StandsFor (lenient.Depicts Serves) parent n →
      (∀ k ∈ leafKinds, f.isKind id k = decide (j = k)) → viewOperand f id = some v) :
    Shows n v := by
  intro f parent id fuel h hfuel
  obtain ⟨fuel, rfl⟩ : ∃ rest, fuel = rest + 1 := by
    have hcount := n.nodeCount_eq
    exact ⟨fuel - 1, by omega⟩
  obtain ⟨hnode, hm, -, -⟩ := h
  have hkind : ∀ k ∈ leafKinds, f.isKind id k = decide (j = k) := fun k hk =>
    isKind_of_describes hnode (hdescribes _ _ hm.look) hj hk
  rw [viewExpression, hkind Kinds.sumExpression (by decide), decide_eq_false hne]
  exact hview f parent id _ hnode hm hkind

theorem shows_intLiteral (hrule : n.rule = Rule.intLiteral) {i : Int}
    (hread : Integer64.read n.text = .ok i) : Shows n (.integer i) := by
  refine shows_of_viewOperand (j := Kinds.intLiteral) (by decide) (by decide)
    (fun d data h => (portrait_intLiteral h hrule hread).1) fun f parent id m hnode hm hkind => ?_
  obtain ⟨hd, hdata⟩ := portrait_intLiteral hm.look hrule hread
  have hvalue : f.property id "value" = .ok (some (.integer i)) :=
    property_of_data (i := 0) (p := .attr "value" "int") hnode hm (by rw [hd.properties]; rfl) rfl
      (by rw [hdata]; rfl)
  simp (disch := decide) only [viewOperand, hkind]
  simp +decide [hvalue]

theorem shows_decLiteral (hrule : n.rule = Rule.decLiteral) {x : Binary64}
    (hread : Binary64.read n.text = .ok x) : Shows n (.decimal x) := by
  refine shows_of_viewOperand (j := Kinds.decLiteral) (by decide) (by decide)
    (fun d data h => (portrait_decLiteral h hrule hread).1) fun f parent id m hnode hm hkind => ?_
  obtain ⟨hd, hdata⟩ := portrait_decLiteral hm.look hrule hread
  have hvalue : f.property id "value" = .ok (some (.decimal x)) :=
    property_of_data (i := 0) (p := .attr "value" "decimal") hnode hm (by rw [hd.properties]; rfl)
      rfl (by rw [hdata]; rfl)
  simp (disch := decide) only [viewOperand, hkind]
  simp +decide [hvalue]

theorem shows_stringLiteral (hrule : n.rule = Rule.stringLiteral) :
    Shows n (.string (unquoted n.text)) := by
  refine shows_of_viewOperand (j := Kinds.stringLiteral) (by decide) (by decide)
    (fun d data h => (portrait_stringLiteral h hrule).1) fun f parent id m hnode hm hkind => ?_
  obtain ⟨hd, hdata⟩ := portrait_stringLiteral hm.look hrule
  have hvalue : f.property id "value" = .ok (some (.string (unquoted n.text))) :=
    property_of_data (i := 0) (p := .attr "value" "string") hnode hm (by rw [hd.properties]; rfl)
      rfl (by rw [hdata]; rfl)
  simp (disch := decide) only [viewOperand, hkind]
  simp +decide [hvalue]

theorem shows_valueReference (hrule : n.rule = Rule.valueReference) : Shows n (.name n.text) := by
  refine shows_of_viewOperand (j := Kinds.valueReference) (by decide) (by decide)
    (fun d data h => (portrait_valueReference h hrule).1) fun f parent id m hnode hm hkind => ?_
  obtain ⟨hd, hdata⟩ := portrait_valueReference hm.look hrule
  obtain ⟨r, hread, hname⟩ := reference_of_data (i := 0)
    (p := .reference "variable" "simple.Statement") hnode hm (by rw [hd.properties]; rfl) rfl
    (by rw [hdata]; rfl)
  have hreference : f.reference id "variable" = .ok (some r) := hread
  simp (disch := decide) only [viewOperand, hkind]
  simp +decide [hreference, hname]

end Operands

section Composites
variable {f : Forest} {parent : Option Nat} {id : NodeId} {n a b : ParseNode}

/-- The nodes under one that mirrors a rule node mirror the rule nodes under it. -/
theorem mirrors_of_two (h : f.Mirrors (lenient.Depicts Serves) parent id n)
    (hchildren : n.childNodes = [a, b]) :
    f.Mirrors (lenient.Depicts Serves) (some id) (id + 1) a ∧
      f.Mirrors (lenient.Depicts Serves) (some id) (id + 1 + a.nodeCount) b := by
  obtain ⟨-, -, -, hbelow⟩ := h
  rw [hchildren] at hbelow
  exact ⟨hbelow a _ (by simp [Forest.placesFrom]), hbelow b _ (by simp [Forest.placesFrom])⟩

theorem mirrors_of_one (h : f.Mirrors (lenient.Depicts Serves) parent id n)
    (hchildren : n.childNodes = [a]) : f.Mirrors (lenient.Depicts Serves) (some id) (id + 1) a := by
  obtain ⟨-, -, -, hbelow⟩ := h
  rw [hchildren] at hbelow
  exact hbelow a _ (by simp [Forest.placesFrom])

theorem Shows.sum {left right : ExpressionView} (hleft : Shows a left) (hright : Shows b right)
    (hrule : n.rule = Rule.sumExpression) (hchildren : n.childNodes = [a, b]) :
    Shows n (.sum left right) := by
  intro f parent id fuel h hfuel
  have hcount := n.nodeCount_eq
  rw [hchildren, ParseTree.countOf_cons, ParseTree.countOf_cons] at hcount
  obtain ⟨fuel, rfl⟩ : ∃ rest, fuel = rest + 1 := ⟨fuel - 1, by omega⟩
  obtain ⟨ha, hb⟩ := mirrors_of_two h hchildren
  obtain ⟨hnode, hm, hnodes, -⟩ := h
  next m =>
  obtain ⟨hd, -⟩ := portrait_sumExpression hm.look hrule
  rw [hchildren] at hnodes
  obtain ⟨hfirst, hsecond⟩ := Node.slots_of_two hd.properties hm.typed rfl rfl rfl rfl hnodes
  have hl : f.child id "left" = .ok (some (id + 1)) := by
    have hchild := Forest.child_of_slot (i := 0) (p := .child "left" "simple.Expression") hnode hm
      (by rw [hd.properties]; rfl) rfl rfl
    rwa [hfirst] at hchild
  have hr : f.child id "right" = .ok (some (id + 1 + a.nodeCount)) := by
    have hchild := Forest.child_of_slot (i := 1) (p := .child "right" "simple.Expression") hnode hm
      (by rw [hd.properties]; rfl) rfl rfl
    rwa [hsecond] at hchild
  have hkind := isKind_of_describes (k := Kinds.sumExpression) hnode hd (by decide) (by decide)
  have hviewLeft : viewExpression f fuel (id + 1) = some left := hleft ha (by omega)
  have hviewRight : viewExpression f fuel (id + 1 + a.nodeCount) = some right :=
    hright hb (by omega)
  simp only [viewExpression, hkind, hl, hr, hviewLeft, hviewRight, decide_true, if_true]

/-- The value of a statement, in its last slot. -/
theorem viewValue_eq {v : ExpressionView} {m : Node} {i : Nat} (hv : Shows a v)
    (hnode : f.node? id = some m) (hm : m.StandsFor (lenient.Depicts Serves) parent n)
    (hp : m.descriptor.properties[i]? = some (.child "value" "simple.Expression"))
    (hslot : (m.slot i).nodes = [id + 1])
    (ha : f.Mirrors (lenient.Depicts Serves) (some id) (id + 1) a) (hsize : a.nodeCount ≤ f.size) :
    viewValue f id = some v := by
  have hchild : f.child id "value" = .ok (some (id + 1)) := by
    have hread := Forest.child_of_slot hnode hm hp rfl rfl
    rwa [hslot] at hread
  simp only [viewValue, hchild, hv ha hsize]

theorem showsStatement_set {x : Token} {v : ExpressionView} (hv : Shows a v)
    (hrule : n.rule = Rule.setStatement) (hx : n.tokenOf? identifier = some x)
    (hchildren : n.childNodes = [a]) : ShowsStatement n (.set x.text v) := by
  intro f parent id h hsize
  have hlt := RuleNode.nodeCount_lt_of_mem (n := n) (c := a) (by simp [hchildren])
  have ha := mirrors_of_one h hchildren
  obtain ⟨hnode, hm, hnodes, -⟩ := h
  next m =>
  obtain ⟨hd, hdata⟩ := portrait_setStatement hm.look hrule hx
  rw [Node.children_of_two hd.properties hm.typed, hchildren] at hnodes
  have hvalue := viewValue_eq (i := 1) hv hnode hm (by rw [hd.properties]; rfl) hnodes ha (by omega)
  have hname : f.property id "variable" = .ok (some (.string x.text)) :=
    property_of_data (i := 0) (p := .attr "variable" "string") hnode hm
      (by rw [hd.properties]; rfl) rfl (by rw [hdata]; rfl)
  have hkind : ∀ k ∈ leafKinds, f.isKind id k = decide (_ = k) := fun k hk =>
    isKind_of_describes hnode hd (by decide) hk
  simp (disch := decide) only [viewStatement, hkind]
  simp [hvalue, hname]

theorem showsStatement_display {v : ExpressionView} (hv : Shows a v)
    (hrule : n.rule = Rule.displayStatement) (hchildren : n.childNodes = [a]) :
    ShowsStatement n (.display v) := by
  intro f parent id h hsize
  have hlt := RuleNode.nodeCount_lt_of_mem (n := n) (c := a) (by simp [hchildren])
  have ha := mirrors_of_one h hchildren
  obtain ⟨hnode, hm, hnodes, -⟩ := h
  next m =>
  obtain ⟨hd, -⟩ := portrait_displayStatement hm.look hrule
  rw [Node.children_of_one hd.properties rfl hm.typed, hchildren] at hnodes
  have hvalue := viewValue_eq (i := 0) hv hnode hm (by rw [hd.properties]; rfl) hnodes ha (by omega)
  have hkind : ∀ k ∈ leafKinds, f.isKind id k = decide (_ = k) := fun k hk =>
    isKind_of_describes hnode hd (by decide) hk
  simp (disch := decide) only [viewStatement, hkind]
  simp +decide [hvalue]

theorem showsStatement_input {x y : Token} (hrule : n.rule = Rule.inputDeclaration)
    (hx : n.tokenOf? identifier = some x) (hy : typeKeywords.findSome? n.tokenOf? = some y) :
    ShowsStatement n (.input x.text y.text) := by
  intro f parent id h _
  obtain ⟨hnode, hm, -, -⟩ := h
  next m =>
  obtain ⟨hd, hdata⟩ := portrait_inputDeclaration hm.look hrule hx hy
  have hname : f.property id "name" = .ok (some (.string x.text)) :=
    property_of_data (i := 0) (p := .attr "name" "string") hnode hm (by rw [hd.properties]; rfl) rfl
      (by rw [hdata]; rfl)
  have htype : f.property id "type" = .ok (some (.string y.text)) :=
    property_of_data (i := 1) (p := .attr "type" "string") hnode hm (by rw [hd.properties]; rfl) rfl
      (by rw [hdata]; rfl)
  have hkind : ∀ k ∈ leafKinds, f.isKind id k = decide (_ = k) := fun k hk =>
    isKind_of_describes hnode hd (by decide) hk
  simp (disch := decide) only [viewStatement, hkind]
  simp +decide [hname, htype]

theorem mapM_viewStatement {start : Nat} {ns : List ParseNode} {vs : List StatementView}
    (h : f.MirrorsAll (lenient.Depicts Serves) parent start ns)
    (hsize : ∀ n ∈ ns, n.nodeCount ≤ f.size) (hvs : List.Forall₂ ShowsStatement ns vs) :
    (Forest.placesFrom start ns).mapM (viewStatement f) = some vs := by
  induction hvs generalizing start with
  | nil => rfl
  | @cons n v ns vs hv _ ih =>
    obtain ⟨hfirst, hrest⟩ := Forest.mirrorsAll_cons.mp h
    have hstatement := hv hfirst (hsize n (by simp))
    rw [Forest.placesFrom, List.mapM_cons, hstatement, ih hrest fun m hm => hsize m (by simp [hm])]
    rfl

/-- A tree that mirrors a compilation unit reads as its statements. -/
theorem viewProgram_eq {vs : List StatementView}
    (h : f.Mirrors (lenient.Depicts Serves) parent id n) (hsize : n.nodeCount ≤ f.size)
    (hrule : n.rule = Rule.compilationUnit) (hvs : List.Forall₂ ShowsStatement n.childNodes vs) :
    viewProgram f id = some vs := by
  obtain ⟨hnode, hm, hnodes, hbelow⟩ := h
  next m =>
  obtain ⟨hd, -⟩ := portrait_compilationUnit hm.look hrule
  rw [Node.children_of_one hd.properties rfl hm.typed] at hnodes
  have hchildren : f.childrenOf id "statements" =
      .ok (Forest.placesFrom (id + 1) n.childNodes) := by
    have hread := Forest.childrenOf_of_slot (i := 0)
      (p := .children "statements" "simple.Statement") hnode hm (by rw [hd.properties]; rfl) rfl rfl
    rwa [hnodes] at hread
  have hkind := isKind_of_describes (k := Kinds.compilationUnit) hnode hd (by decide) (by decide)
  have hsmall : ∀ c ∈ n.childNodes, c.nodeCount ≤ f.size := by
    intro c hc
    have hlt := RuleNode.nodeCount_lt_of_mem hc
    omega
  simp only [viewProgram, hkind, hchildren, decide_true, if_true]
  exact mapM_viewStatement hbelow hsmall hvs

end Composites

end Script

end Arbor
