import Arbor.Proofs.Script.Parsing
import Arbor.Proofs.Script.Sentences

/-!
Names in a program: among its tokens, in its tree and on its nodes. A name is declared by the
identifier behind `set` or `input`, and used by every other one. In the tree of a program these are
the statements with a name and the operands that are identifiers, and on the nodes they are
attributes and references; all three tell the same names.
-/
namespace Arbor.Script
open Transformer Mapping

section Tokens

/-- The token is the identifier `x`. -/
def Names (t : Token) (x : String) : Prop := t.kind = identifier ∧ t.text = x

/-- The identifier `x` stands right behind a token of such a kind. -/
def Follows (p : TokenKind → Prop) (ts : List Token) (x : String) : Prop :=
  ∃ before k t after, ts = before ++ k :: t :: after ∧ p k.kind ∧ Names t x

/-- The identifier `x` stands behind `set` or behind `input`. -/
def Declares (ts : List Token) (x : String) : Prop :=
  Follows (fun k => k = Script.set ∨ k = input) ts x

/-- The identifier `x` stands behind something else. -/
def Uses (ts : List Token) (x : String) : Prop :=
  Follows (fun k => ¬ (k = Script.set ∨ k = input)) ts x

variable {p : TokenKind → Prop} {k t : Token} {ts rest : List Token} {x : String}

theorem not_follows_nil : ¬ Follows p [] x := by
  rintro ⟨before, k, t, after, h, -⟩
  simp at h

theorem follows_cons :
    Follows p (k :: ts) x ↔ (p k.kind ∧ ∃ t ∈ ts.head?, Names t x) ∨ Follows p ts x := by
  constructor
  · rintro ⟨before, j, t, after, h, hj, ht⟩
    rcases before with - | ⟨_, before⟩
    · obtain ⟨rfl, rfl⟩ := List.cons.inj h
      exact .inl ⟨hj, t, rfl, ht⟩
    · obtain ⟨-, rfl⟩ := List.cons.inj h
      exact .inr ⟨before, j, t, after, rfl, hj, ht⟩
  · rintro (⟨hk, t, hhead, ht⟩ | ⟨before, j, t, after, rfl, hj, ht⟩)
    · obtain ⟨after, rfl⟩ := List.head?_eq_some_iff.mp hhead
      exact ⟨[], k, t, after, rfl, hk, ht⟩
    · exact ⟨k :: before, j, t, after, rfl, hj, ht⟩

/-- Tokens that do not begin with an identifier. -/
def Opens (ts : List Token) : Prop := ∀ t ∈ ts.head?, t.kind ≠ identifier

theorem Opens.follows_cons (h : Opens ts) : Follows p (k :: ts) x ↔ Follows p ts x := by
  rw [Script.follows_cons]
  constructor
  · rintro (⟨-, t, ht, hname⟩ | hts)
    · exact absurd hname.1 (h t ht)
    · exact hts
  · exact .inr

theorem follows_cons_cons :
    Follows p (k :: t :: ts) x ↔ (p k.kind ∧ Names t x) ∨ Follows p (t :: ts) x := by
  simp [Script.follows_cons (k := k)]

theorem not_names_of_kind (h : t.kind ≠ identifier) : ¬ Names t x := fun hx => h hx.1

/-- The identifiers of a sum all stand behind the token before it or behind a plus. -/
theorem SumTree.follows_iff {source : String} {n : ParseNode} (h : SumTree source ts n) {b : Prop}
    (hk : p k.kind ↔ b) (hplus : p plus ↔ b) (hrest : Opens rest) :
    Follows p (k :: (ts ++ rest)) x ↔ (b ∧ ∃ t ∈ ts, Names t x) ∨ Follows p rest x := by
  induction h generalizing rest with
  | @operand t rule _ =>
    rw [List.singleton_append, follows_cons_cons, hrest.follows_cons, hk]
    simp
  | @sum ts left q t rule _ hq _ ih =>
    have hopens : Opens (q :: t :: rest) := by simp [Opens, hq, plus, identifier]
    have hname : ¬ Names q x := not_names_of_kind (by simp [hq, plus, identifier])
    rw [List.append_assoc, List.cons_append, List.cons_append, List.nil_append, ih hopens,
      follows_cons_cons, hrest.follows_cons, hq, hplus]
    simp only [List.mem_append, List.mem_cons, List.not_mem_nil, or_false, or_and_right,
      exists_or, exists_eq_left, hname, false_or, and_or_left]
    exact or_assoc.symm

end Tokens

section Trees

/-- The name that a rule node of a program uses. -/
def usedIn (n : ParseNode) : Option String :=
  if n.rule = Rule.valueReference then some n.text else none

/-- The name that a rule node of a program declares. -/
def declaredIn (n : ParseNode) : Option String :=
  if n.rule = Rule.setStatement ∨ n.rule = Rule.inputDeclaration then
    (n.tokenOf? identifier).map (·.text)
  else none

/-- Rule nodes of which the mapping makes what their rule says. -/
inductive Regular : ParseNode → Prop
  | plain {n : ParseNode} (hrule : n.rule ∈ [Rule.compilationUnit, Rule.displayStatement,
      Rule.sumExpression, Rule.intLiteral, Rule.decLiteral, Rule.stringLiteral]) : Regular n
  | reference {n : ParseNode} (hrule : n.rule = Rule.valueReference) : Regular n
  | set {n : ParseNode} {x : Token} (hrule : n.rule = Rule.setStatement)
      (hx : n.tokenOf? identifier = some x) : Regular n
  | input {n : ParseNode} {x y : Token} (hrule : n.rule = Rule.inputDeclaration)
      (hx : n.tokenOf? identifier = some x)
      (hy : typeKeywords.findSome? n.tokenOf? = some y) : Regular n

/-- The text that a token of the source covers is its own. -/
def Covers (source : String) (t : Token) : Prop := t.position.textOf source = some t.text

variable {source : String} {ts : List Token} {n : ParseNode} {ns : List ParseNode} {t : Token}
  {rule : RuleKind} {x : String}

theorem text_operand (ht : Covers source t) (rule : RuleKind) :
    (operand source rule t).text = t.text := by
  have hposition : (operand source rule t).position = t.position := by
    simp [RuleNode.position, operand, ruleNode, stopOf, extendStop, laterToken, Token.position]
  rw [RuleNode.text, hposition]
  change (t.position.textOf source).getD "" = t.text
  rw [ht, Option.getD_some]

theorem preorder_operand : (operand source rule t).preorder = [operand source rule t] :=
  RuleNode.preorder_eq _

theorem preorder_sum (left : ParseNode) (p : Token) (right : ParseNode) :
    (sum source left [.token p, .node right]).preorder =
      sum source left [.token p, .node right] :: (left.preorder ++ right.preorder) := by
  rw [RuleNode.preorder_eq]
  change _ :: [left, right].flatMap RuleNode.preorder = _
  simp

theorem operandRule?_cases (h : operandRule? t = some rule) :
    (t.kind = identifier ∧ rule = Rule.valueReference) ∨ (t.kind ≠ identifier ∧
      rule ∈ [Rule.intLiteral, Rule.decLiteral, Rule.stringLiteral]) := by
  unfold operandRule? at h
  split_ifs at h with hint hdec hstring hid <;> cases h
  · exact .inr ⟨by simp [hint, intLiteral, identifier], by simp⟩
  · exact .inr ⟨by simp [hdec, decLiteral, identifier], by simp⟩
  · exact .inr ⟨by simp [hstring, stringLiteral, identifier], by simp⟩
  · exact .inl ⟨hid, rfl⟩

theorem rule_operand : (operand source rule t).rule = rule := rfl

theorem usedIn_operand (ht : Covers source t) (hrule : operandRule? t = some rule) :
    usedIn (operand source rule t) = some x ↔ Names t x := by
  rw [usedIn, rule_operand, text_operand ht, Names]
  rcases operandRule?_cases hrule with ⟨hk, rfl⟩ | ⟨hk, hother⟩
  · simp [hk]
  · have hne : rule ≠ Rule.valueReference := by
      rintro rfl
      exact absurd hother (by decide)
    simp [hk, hne]

theorem SumTree.used_iff (h : SumTree source ts n) (hts : ∀ t ∈ ts, Covers source t) :
    (∃ c ∈ n.preorder, usedIn c = some x) ↔ ∃ t ∈ ts, Names t x := by
  induction h with
  | @operand t rule hrule =>
    rw [preorder_operand]
    simpa using usedIn_operand (hts t (by simp)) hrule
  | @sum ts left p t rule _ hp hrule ih =>
    have hleft := ih fun u hu => hts u (by simp [hu])
    have hright := usedIn_operand (x := x) (hts t (by simp)) hrule
    have hnode : ∀ right, usedIn (Script.sum source left right) = none := fun _ => rfl
    have hname : ¬ Names p x := not_names_of_kind (by simp [hp, plus, identifier])
    rw [preorder_sum, preorder_operand]
    simp [hnode, hname, or_and_right, exists_or, hleft, hright]

/-- The rules of expressions. -/
def expressionRules : List RuleKind := [Rule.sumExpression, Rule.intLiteral, Rule.decLiteral,
  Rule.stringLiteral, Rule.valueReference]

theorem operandRule?_mem (h : operandRule? t = some rule) : rule ∈ expressionRules := by
  rcases operandRule?_cases h with ⟨-, rfl⟩ | ⟨-, hother⟩
  · decide
  · exact List.mem_cons_of_mem _ (List.mem_append_left [Rule.valueReference] hother)

theorem SumTree.rule_mem (h : SumTree source ts n) :
    ∀ c ∈ n.preorder, c.rule ∈ expressionRules := by
  induction h with
  | @operand t rule hrule =>
    intro c hc
    rw [preorder_operand] at hc
    obtain rfl := List.mem_singleton.mp hc
    exact operandRule?_mem hrule
  | @sum ts left p t rule _ _ hrule ih =>
    intro c hc
    rw [preorder_sum, preorder_operand, List.mem_cons, List.mem_append, List.mem_singleton] at hc
    rcases hc with rfl | hc | rfl
    · exact List.mem_cons_self
    · exact ih c hc
    · exact operandRule?_mem hrule

theorem declaredIn_of_expression (h : n.rule ∈ expressionRules) : declaredIn n = none := by
  have hne : ∀ rule ∈ expressionRules,
      ¬ (rule = Rule.setStatement ∨ rule = Rule.inputDeclaration) := by decide
  rw [declaredIn, if_neg (hne _ h)]

theorem regular_of_expression (h : n.rule ∈ expressionRules) : Regular n := by
  by_cases href : n.rule = Rule.valueReference
  · exact .reference href
  · refine .plain ?_
    simp only [expressionRules, List.mem_cons, List.not_mem_nil, or_false, href] at h ⊢
    tauto

theorem preorder_ruleNode (t : Token) (rule : RuleKind) (children : List ParseTree) :
    (ruleNode source rule t children).preorder =
      ruleNode source rule t children :: (nodesIn children).flatMap RuleNode.preorder :=
  RuleNode.preorder_eq _

section Statements
variable {k x q i y : Token} {value : ParseNode}

theorem tokenOf?_set (hk : k.kind = Script.set) (hx : x.kind = identifier) :
    (ruleNode source Rule.setStatement k
      [.token k, .token x, .token q, .node value]).tokenOf? identifier = some x := by
  simp [RuleNode.tokenOf?, ruleNode, hk, hx, Script.set, identifier]

theorem tokenOf?_input (hk : k.kind = input) (hx : x.kind = identifier) :
    (ruleNode source Rule.inputDeclaration k
      [.token k, .token x, .token i, .token y]).tokenOf? identifier = some x := by
  simp [RuleNode.tokenOf?, ruleNode, hk, hx, input, identifier]

theorem findSome?_input (hk : k.kind = input) (hx : x.kind = identifier) (hi : i.kind = is)
    (hy : y.kind ∈ typeKeywords) :
    typeKeywords.findSome? (ruleNode source Rule.inputDeclaration k
      [.token k, .token x, .token i, .token y]).tokenOf? = some y := by
  simp only [typeKeywords, List.mem_cons, List.not_mem_nil, or_false] at hy
  rcases hy with hy | hy | hy <;>
    simp [typeKeywords, RuleNode.tokenOf?, ruleNode, hk, hx, hi, hy, input, identifier, is, int,
      dec, string]

end Statements

theorem StatementTree.regular (h : StatementTree source ts n) : ∀ c ∈ n.preorder, Regular c := by
  intro c hc
  cases h with
  | @set k x q ts value hk hx hq hvalue =>
    rw [preorder_ruleNode] at hc
    rcases List.mem_cons.mp hc with rfl | hc
    · exact .set rfl (tokenOf?_set hk hx)
    · exact regular_of_expression (hvalue.rule_mem c (by simpa [nodesIn, ParseTree.node?] using hc))
  | @display k ts value hk hvalue =>
    rw [preorder_ruleNode] at hc
    rcases List.mem_cons.mp hc with rfl | hc
    · exact .plain (by simp [ruleNode])
    · exact regular_of_expression (hvalue.rule_mem c (by simpa [nodesIn, ParseTree.node?] using hc))
  | @input k x i y hk hx hi hy =>
    rw [preorder_ruleNode] at hc
    rcases List.mem_cons.mp hc with rfl | hc
    · exact .input rfl (tokenOf?_input hk hx) (findSome?_input hk hx hi hy)
    · simp [nodesIn, ParseTree.node?] at hc

theorem exists_preorder_ruleNode {look : ParseNode → Option String} {k : Token} {rule : RuleKind}
    {children : List ParseTree} (hroot : look (ruleNode source rule k children) = none) :
    (∃ c ∈ (ruleNode source rule k children).preorder, look c = some x) ↔
      ∃ n ∈ nodesIn children, ∃ c ∈ n.preorder, look c = some x := by
  rw [preorder_ruleNode]
  simp only [List.mem_cons, or_and_right, exists_or, exists_eq_left, hroot, reduceCtorEq, false_or,
    List.mem_flatMap]
  constructor
  · rintro ⟨c, ⟨n, hn, hc⟩, hx⟩
    exact ⟨n, hn, c, hc, hx⟩
  · rintro ⟨n, hn, c, hc, hx⟩
    exact ⟨c, ⟨n, hn, hc⟩, hx⟩

theorem declared_ruleNode {k : Token} {rule : RuleKind} {children : List ParseTree}
    (hchildren : ∀ n ∈ nodesIn children, ∃ ts, SumTree source ts n) :
    (∃ c ∈ (ruleNode source rule k children).preorder, declaredIn c = some x) ↔
      declaredIn (ruleNode source rule k children) = some x := by
  rw [preorder_ruleNode]
  simp only [List.mem_cons, or_and_right, exists_or, exists_eq_left, List.mem_flatMap,
    or_iff_left_iff_imp]
  rintro ⟨c, ⟨n, hn, hc⟩, hx⟩
  obtain ⟨ts, hsum⟩ := hchildren n hn
  rw [declaredIn_of_expression (hsum.rule_mem c hc)] at hx
  contradiction

/-- A choice of the kinds behind which a name is used, if `b` holds, or declared otherwise. -/
structure Marks (p : TokenKind → Prop) (b : Prop) : Prop where
  set : p Script.set ↔ ¬ b
  input : p input ↔ ¬ b
  equal : p equal ↔ b
  display : p display ↔ b
  plus : p plus ↔ b

theorem marks_uses : Marks (fun k => ¬ (k = Script.set ∨ k = input)) True := by
  constructor <;> decide

theorem marks_declares : Marks (fun k => k = Script.set ∨ k = input) False := by
  constructor <;> decide

/-- The names that a statement uses or declares, told by its tokens and by its tree. -/
theorem StatementTree.follows_iff {p : TokenKind → Prop} {b : Prop} (hp : Marks p b)
    (h : StatementTree source ts n) (hts : ∀ t ∈ ts, Covers source t) {rest : List Token}
    (hrest : Opens rest) :
    Follows p (ts ++ rest) x ↔ (b ∧ ∃ c ∈ n.preorder, usedIn c = some x) ∨
      (¬ b ∧ ∃ c ∈ n.preorder, declaredIn c = some x) ∨ Follows p rest x := by
  cases h with
  | @set k y q ts value hk hy hq hvalue =>
    have hvalues := hvalue.used_iff (x := x) fun t ht => hts t (by simp [ht])
    have hopens : Opens (q :: (ts ++ rest)) := by simp [Opens, hq, equal, identifier]
    have hdeclared : declaredIn (ruleNode source Rule.setStatement k
        [.token k, .token y, .token q, .node value]) = some y.text := by
      rw [declaredIn, tokenOf?_set hk hy]
      rfl
    have hchildren : ∀ n ∈ nodesIn [.token k, .token y, .token q, .node value],
        ∃ ts, SumTree source ts n := by
      simpa [nodesIn, ParseTree.node?] using ⟨_, hvalue⟩
    rw [List.cons_append, List.cons_append, List.cons_append, follows_cons_cons,
      hopens.follows_cons, hvalue.follows_iff (hq ▸ hp.equal) hp.plus hrest, hk, hp.set,
      exists_preorder_ruleNode rfl, declared_ruleNode hchildren, hdeclared]
    simp only [nodesIn, ParseTree.node?, List.filterMap_cons, List.filterMap_nil,
      List.mem_singleton, exists_eq_left, hvalues, Names, hy, true_and, Option.some.injEq]
    exact or_left_comm
  | @display k ts value hk hvalue =>
    have hvalues := hvalue.used_iff (x := x) fun t ht => hts t (by simp [ht])
    have hdeclared : declaredIn (ruleNode source Rule.displayStatement k
        [.token k, .node value]) = none := rfl
    have hchildren : ∀ n ∈ nodesIn [.token k, .node value], ∃ ts, SumTree source ts n := by
      simpa [nodesIn, ParseTree.node?] using ⟨_, hvalue⟩
    rw [List.cons_append, hvalue.follows_iff (hk ▸ hp.display) hp.plus hrest,
      exists_preorder_ruleNode rfl, declared_ruleNode hchildren, hdeclared]
    simp [nodesIn, ParseTree.node?, hvalues]
  | @input k y i z hk hy hi hz =>
    have hopens : Opens (i :: z :: rest) := by simp [Opens, hi, is, identifier]
    have hlast : Opens (z :: rest) := by
      have hne : ∀ k ∈ typeKeywords, k ≠ identifier := by decide
      simpa [Opens] using hne _ hz
    have hdeclared : declaredIn (ruleNode source Rule.inputDeclaration k
        [.token k, .token y, .token i, .token z]) = some y.text := by
      rw [declaredIn, tokenOf?_input hk hy]
      rfl
    simp only [List.cons_append, List.nil_append]
    rw [follows_cons_cons, hopens.follows_cons, hlast.follows_cons, hrest.follows_cons, hk,
      hp.input, exists_preorder_ruleNode rfl,
      declared_ruleNode (by simp [nodesIn, ParseTree.node?]), hdeclared]
    simp [nodesIn, ParseTree.node?, Names, hy]

theorem ProgramTrees.opens (h : ProgramTrees source ts ns) : Opens ts := by
  intro t ht hid
  have hstart := h.startsStatement_head t ht
  simp [startsStatement, hid, Script.set, display, input, identifier] at hstart

theorem ProgramTrees.follows_iff {p : TokenKind → Prop} {b : Prop} (hp : Marks p b)
    (h : ProgramTrees source ts ns) (hts : ∀ t ∈ ts, Covers source t) :
    Follows p ts x ↔ (b ∧ ∃ n ∈ ns, ∃ c ∈ n.preorder, usedIn c = some x) ∨
      (¬ b ∧ ∃ n ∈ ns, ∃ c ∈ n.preorder, declaredIn c = some x) := by
  induction h with
  | nil => simp [not_follows_nil]
  | cons hfirst hrest ih =>
    rw [hfirst.follows_iff hp (fun t ht => hts t (by simp [ht])) hrest.opens,
      ih fun t ht => hts t (by simp [ht])]
    by_cases hb : b <;> simp [hb, or_and_right, exists_or]

theorem nodesIn_program (last : Token) (ns : List ParseNode) :
    nodesIn (ns.map .node ++ [.token last]) = ns := by
  simp [nodesIn, List.filterMap_map, Function.comp_def, ParseTree.node?]

/-- The names in the tree of a program are those of its statements. -/
theorem exists_preorder_programTree {look : ParseNode → Option String} {last : Token}
    (hroot : look (programTree source last ts ns) = none) :
    (∃ c ∈ (programTree source last ts ns).preorder, look c = some x) ↔
      ∃ n ∈ ns, ∃ c ∈ n.preorder, look c = some x := by
  rw [programTree, exists_preorder_ruleNode hroot, nodesIn_program]

theorem ProgramTrees.regular (h : ProgramTrees source ts ns) (last : Token) (us : List Token) :
    ∀ c ∈ (programTree source last us ns).preorder, Regular c := by
  have hall : ∀ n ∈ ns, ∀ c ∈ n.preorder, Regular c := by
    induction h with
    | nil => simp
    | cons hfirst _ ih =>
      intro n hn
      rcases List.mem_cons.mp hn with rfl | hn
      · exact hfirst.regular
      · exact ih n hn
  intro c hc
  rw [programTree, preorder_ruleNode, nodesIn_program] at hc
  rcases List.mem_cons.mp hc with rfl | hc
  · exact .plain (by simp [ruleNode])
  · obtain ⟨n, hn, hcn⟩ := List.mem_flatMap.mp hc
    exact hall n hn c hcn

end Trees

section Nodes
variable {f : Forest} {parent : Option Nat} {id : NodeId} {n : ParseNode} {m : Node}
  {R : ParseNode → Descriptor → List Slot → Prop} {i : Nat} {p : Property}

theorem slot_of_data {s : Slot} (h : m.data[i]? = some s) : (m.slot i).bare = s := by
  cases hs : m.slots[i]? with
  | none => simp [Node.data, hs] at h
  | some t =>
    simp only [Node.data, List.getElem?_map, hs, Option.map_some, Option.some.injEq] at h
    simpa [Node.slot, hs] using h

theorem property_of_data (hnode : f.node? id = some m) (hm : m.StandsFor R parent n)
    (hp : m.descriptor.properties[i]? = some p) (hk : p.kind = .attr) {v : Value}
    (hv : m.data[i]? = some (.value v)) : f.property id p.name = .ok (some v) := by
  have hslot : m.slot i = .value v := by
    have hbare := slot_of_data hv
    cases hs : m.slot i <;> simp_all [Slot.bare]
  have hdeclared := Node.declaredOf_of_getElem? hm.typed hm.names hp
  rw [hk] at hdeclared
  simp [Forest.property, Forest.get, hnode, hdeclared, hslot, bind, Except.bind, pure, Except.pure]

theorem reference_of_data (hnode : f.node? id = some m) (hm : m.StandsFor R parent n)
    (hp : m.descriptor.properties[i]? = some p) (hk : p.kind = .reference) {x : String}
    (hv : m.data[i]? = some (.reference ⟨x, none⟩)) :
    ∃ r, f.reference id p.name = .ok (some r) ∧ r.name = x := by
  have hbare := slot_of_data hv
  have hdeclared := Node.declaredOf_of_getElem? hm.typed hm.names hp
  rw [hk] at hdeclared
  rw [Forest.reference_eq hnode, hdeclared]
  cases hs : m.slot i <;> simp_all [Slot.bare, Except.map]

/-- The kinds that no other kind extends. -/
def leafKinds : List Kind := [Kinds.compilationUnit, Kinds.setStatement, Kinds.displayStatement,
  Kinds.inputDeclaration, Kinds.intLiteral, Kinds.decLiteral, Kinds.stringLiteral,
  Kinds.sumExpression, Kinds.valueReference, .errorNode]

theorem leafKinds_cases : ∀ k ∈ leafKinds, k ∈ nodeKinds ∧ k ∉ baseKinds := by decide

theorem isKind_of_describes {j k : Kind} (hnode : f.node? id = some m)
    (hd : m.descriptor.Describes j) (hj : j ∈ nodeKinds) (hleaf : k ∈ leafKinds) :
    f.isKind id k = decide (j = k) := by
  obtain ⟨hk, hbase⟩ := leafKinds_cases k hleaf
  have hisA := isA_iff_of_describes hd hj hk hbase
  rw [Forest.isKind, Forest.isA, hnode, Option.any_some]
  by_cases hjk : j = k
  · simp [hisA.mpr hjk, hjk]
  · have hnot : m.descriptor.isA k.qualifiedName = false := by
      simpa using fun h => hjk (hisA.mp h)
    simp [hnot, hjk]

section Kinds
variable {j : Kind} (hnode : f.node? id = some m) (hd : m.descriptor.Describes j)
  (hj : j ∈ nodeKinds)
include hnode hd hj

theorem usedName?_eq_none (h : j ≠ Kinds.valueReference) : usedName? f id = none := by
  have hkind := isKind_of_describes (k := Kinds.valueReference) hnode hd hj (by decide)
  simp [usedName?, hkind, h]

theorem declaredName?_eq_none (hset : j ≠ Kinds.setStatement)
    (hinput : j ≠ Kinds.inputDeclaration) : declaredName? f id = none := by
  have hset' := isKind_of_describes (k := Kinds.setStatement) hnode hd hj (by decide)
  have hinput' := isKind_of_describes (k := Kinds.inputDeclaration) hnode hd hj (by decide)
  simp [declaredName?, hset', hinput', hset, hinput]

end Kinds

theorem usedName?_of_reference {r : Reference} (hnode : f.node? id = some m)
    (hd : m.descriptor.Describes Kinds.valueReference)
    (h : f.reference id "variable" = .ok (some r)) : usedName? f id = some r.name := by
  have hkind := isKind_of_describes (k := Kinds.valueReference) hnode hd (by decide) (by decide)
  simp [usedName?, hkind, h]

theorem declaredName?_of_set {x : String} (hnode : f.node? id = some m)
    (hd : m.descriptor.Describes Kinds.setStatement)
    (h : f.property id "variable" = .ok (some (.string x))) : declaredName? f id = some x := by
  have hkind := isKind_of_describes (k := Kinds.setStatement) hnode hd (by decide) (by decide)
  simp [declaredName?, hkind, h, Value.asString]

theorem declaredName?_of_input {x : String} (hnode : f.node? id = some m)
    (hd : m.descriptor.Describes Kinds.inputDeclaration)
    (h : f.property id "name" = .ok (some (.string x))) : declaredName? f id = some x := by
  have hset : f.isKind id Kinds.setStatement = false :=
    isKind_of_describes hnode hd (by decide) (by decide)
  have hkind := isKind_of_describes (k := Kinds.inputDeclaration) hnode hd (by decide) (by decide)
  simp [declaredName?, hset, hkind, h, Value.asString]

theorem exists_describes_of_plain {d : Descriptor} {data : List Slot}
    (h : lenient.Depicts Serves n d data) (hrule : n.rule ∈ [Rule.compilationUnit,
      Rule.displayStatement, Rule.sumExpression, Rule.intLiteral, Rule.decLiteral,
      Rule.stringLiteral]) :
    ∃ k ∈ nodeKinds, k ∉ [Kinds.valueReference, Kinds.setStatement, Kinds.inputDeclaration] ∧
      d.Describes k := by
  simp only [List.mem_cons, List.not_mem_nil, or_false] at hrule
  rcases hrule with hrule | hrule | hrule | hrule | hrule | hrule
  · exact ⟨_, by decide, by decide, (portrait_compilationUnit h hrule).1⟩
  · exact ⟨_, by decide, by decide, (portrait_displayStatement h hrule).1⟩
  · exact ⟨_, by decide, by decide, (portrait_sumExpression h hrule).1⟩
  · cases hread : Integer64.read n.text with
    | error e => exact ⟨_, by decide, by decide, portrait_intLiteral_of_error h hrule hread⟩
    | ok i => exact ⟨_, by decide, by decide, (portrait_intLiteral h hrule hread).1⟩
  · cases hread : Binary64.read n.text with
    | error e => exact ⟨_, by decide, by decide, portrait_decLiteral_of_error h hrule hread⟩
    | ok i => exact ⟨_, by decide, by decide, (portrait_decLiteral h hrule hread).1⟩
  · exact ⟨_, by decide, by decide, (portrait_stringLiteral h hrule).1⟩

/-- A node has the names of its rule node. -/
theorem names_of_mirrors (h : f.Mirrors (lenient.Depicts Serves) parent id n) (hn : Regular n) :
    usedName? f id = usedIn n ∧ declaredName? f id = declaredIn n := by
  obtain ⟨hnode, hm, -, -⟩ := h
  next m =>
  cases hn with
  | plain hrule =>
    obtain ⟨k, hk, hother, hd⟩ := exists_describes_of_plain hm.look hrule
    simp only [List.mem_cons, List.not_mem_nil, or_false, not_or] at hother
    have hnone : ∀ rule ∈ [Rule.compilationUnit, Rule.displayStatement, Rule.sumExpression,
        Rule.intLiteral, Rule.decLiteral, Rule.stringLiteral], rule ≠ Rule.valueReference ∧
          ¬ (rule = Rule.setStatement ∨ rule = Rule.inputDeclaration) := by decide
    rw [usedName?_eq_none hnode hd hk hother.1, declaredName?_eq_none hnode hd hk hother.2.1
      hother.2.2, usedIn, if_neg (hnone _ hrule).1, declaredIn, if_neg (hnone _ hrule).2]
    exact ⟨rfl, rfl⟩
  | reference hrule =>
    obtain ⟨hd, hdata⟩ := portrait_valueReference hm.look hrule
    obtain ⟨r, hread, hname⟩ := reference_of_data (i := 0)
      (p := .reference "variable" "simple.Statement") hnode hm (by rw [hd.properties]; rfl) rfl
      (by rw [hdata]; rfl)
    rw [usedName?_of_reference hnode hd hread, declaredName?_eq_none hnode hd (by decide)
      (by decide) (by decide), usedIn, if_pos hrule, hname, declaredIn, hrule]
    exact ⟨rfl, rfl⟩
  | set hrule hx =>
    obtain ⟨hd, hdata⟩ := portrait_setStatement hm.look hrule hx
    have hread := property_of_data (i := 0) (p := .attr "variable" "string") hnode hm
      (by rw [hd.properties]; rfl) rfl (by rw [hdata]; rfl)
    rw [usedName?_eq_none hnode hd (by decide) (by decide), declaredName?_of_set hnode hd hread,
      usedIn, declaredIn, hrule, hx]
    exact ⟨rfl, rfl⟩
  | input hrule hx hy =>
    obtain ⟨hd, hdata⟩ := portrait_inputDeclaration hm.look hrule hx hy
    have hread := property_of_data (i := 0) (p := .attr "name" "string") hnode hm
      (by rw [hd.properties]; rfl) rfl (by rw [hdata]; rfl)
    rw [usedName?_eq_none hnode hd (by decide) (by decide), declaredName?_of_input hnode hd hread,
      usedIn, declaredIn, hrule, hx]
    exact ⟨rfl, rfl⟩

end Nodes

end Arbor.Script
