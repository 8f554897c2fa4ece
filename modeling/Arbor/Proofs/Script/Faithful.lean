import Arbor.Proofs.Script.Derivation
import Arbor.Proofs.Script.Factories

/-!
Trees of the statement language are mapped without loss. Whatever the tokens are, the parser puts
rule nodes only where the mapping looks for them, and none under a statement or an operand that
may fail to be built: a rule breaks off before its first expression where the token is missing that
the constructor needs. So each rule node gets one node, in the same order and under the same parent.
-/
namespace Arbor.Script
open Transformer Mapping

section Parser
variable (source : String) (last : Token) (ts : List Token) {t : Token}

/-- The rule nodes among children. -/
def nodesIn (children : List ParseTree) : List ParseNode := children.filterMap ParseTree.node?

theorem childNodes_ruleNode (rule : RuleKind) (children : List ParseTree) :
    (ruleNode source rule t children).childNodes = nodesIn children := rfl

theorem nodesIn_append (children more : List ParseTree) :
    nodesIn (children ++ more) = nodesIn children ++ nodesIn more :=
  List.filterMap_append

theorem nodesIn_mismatch (expected : String) :
    nodesIn (mismatch last expected ts).children = [] := by
  simp [nodesIn, mismatch, ParseTree.node?, List.filterMap_cons, List.filterMap_map,
    Function.comp_def]

theorem nodesIn_expectAny (kinds : List TokenKind) (expected : String) :
    nodesIn (expectAny last kinds expected ts).children = [] := by
  unfold expectAny
  split
  · exact nodesIn_mismatch _ _ _
  · split
    · rfl
    · exact nodesIn_mismatch _ _ _

theorem isRule_operand {rule : RuleKind} (hrule : operandRule? t = some rule) :
    (operand source rule t).isRule Rule.expression := by
  unfold operandRule? at hrule
  split_ifs at hrule <;> cases hrule <;> rfl

theorem parts_operand {rule : RuleKind} (hrule : operandRule? t = some rule) :
    Parts Rule.expression [operand source rule t] := by
  intro c hc
  obtain rfl := List.mem_singleton.mp hc
  exact ⟨isRule_operand source hrule, renders_operand hrule source⟩

theorem parts_sum {left : ParseNode} (right : Option ParseNode) {children : List ParseTree}
    (hleft : Parts Rule.expression [left]) (hright : Parts Rule.expression right.toList)
    (hchildren : nodesIn children = right.toList) :
    Parts Rule.expression [sum source left children] := by
  have hparts : (sum source left children).childNodes = left :: right.toList := by
    rw [← hchildren]
    rfl
  intro c hc
  obtain rfl := List.mem_singleton.mp hc
  refine ⟨rfl, renders_sum rfl hparts fun c hc => ?_⟩
  rcases List.mem_cons.mp hc with rfl | hc
  · exact hleft _ (by simp)
  · exact hright c hc

theorem parts_sumFrom {left : ParseNode} (hleft : Parts Rule.expression [left]) :
    Parts Rule.expression [(sumFrom source last left ts).1] := by
  fun_induction sumFrom source last left ts with
  | case1 => exact hleft
  | case2 =>
    have hnone := nodesIn_mismatch last [] "expression"
    exact parts_sum source none hleft (by simp [Parts]) hnone
  | case3 => exact hleft
  | case4 left t u rest _ rule hrule ih =>
    exact ih (parts_sum source (some _) hleft (parts_operand source hrule) rfl)
  | case5 left t u rest =>
    have hnone := nodesIn_mismatch last (u :: rest) "expression"
    exact parts_sum source none hleft (by simp [Parts]) hnone
  | case6 => exact hleft

theorem expectExpression_cases :
    ∃ value : Option ParseNode,
      nodesIn (expectExpression source last ts).children = value.toList ∧
        Parts Rule.expression value.toList := by
  unfold expectExpression
  split
  · next n issues rest he =>
    obtain _ | ⟨t, ts⟩ := ts
    · simp [expression] at he
    obtain ⟨rule, hrule, he⟩ := Option.map_eq_some_iff.mp he
    refine ⟨some n, rfl, ?_⟩
    have hsum := parts_sumFrom source last ts (parts_operand source hrule)
    rwa [he] at hsum
  · exact ⟨none, nodesIn_mismatch _ _ _, by simp [Parts]⟩

/-- The rule node of an expression is the sum from its first operand on. -/
theorem mem_nodesIn_expectExpression {c : ParseNode}
    (hc : c ∈ nodesIn (expectExpression source last ts).children) :
    ∃ t rest rule, ts = t :: rest ∧ operandRule? t = some rule ∧
      c = (sumFrom source last (operand source rule t) rest).1 := by
  unfold expectExpression at hc
  split at hc
  · next n issues rest he =>
    obtain _ | ⟨t, ts⟩ := ts
    · simp [expression] at he
    obtain ⟨rule, hrule, he⟩ := Option.map_eq_some_iff.mp he
    obtain rfl : c = n := by simpa [nodesIn, ParseTree.node?] using hc
    exact ⟨t, ts, rule, rfl, hrule, (congrArg Prod.fst he).symm⟩
  · rw [nodesIn_mismatch] at hc
    cases hc

/-- The part of a rule up to its first expression: it breaks off where the name is missing. -/
structure Named (m : Match) : Prop where
  nodes : nodesIn m.children = []
  name : m.fits → ∃ u, u.kind = identifier ∧ .token u ∈ m.children

theorem named_expect : Named (expect last identifier ts) where
  nodes := nodesIn_expectAny _ _ _ _
  name h := by
    unfold expect expectAny at h ⊢
    split at h
    · cases h
    · next u rest =>
      split at h
      · next hk => exact ⟨u, by simpa using hk, by simp [hk]⟩
      · cases h

variable {m : Match} {next : List Token → Match}

theorem children_andThen (h : m.fits) :
    (m.andThen next).children = m.children ++ (next m.rest).children := by
  simp [Match.andThen, h]

theorem andThen_of_not_fits (h : ¬ m.fits) : m.andThen next = m := by simp [Match.andThen, h]

theorem mem_nodesIn_andThen {c : ParseNode} (hc : c ∈ nodesIn (m.andThen next).children) :
    c ∈ nodesIn m.children ∨ c ∈ nodesIn (next m.rest).children := by
  by_cases hfit : m.fits
  · rw [children_andThen hfit, nodesIn_append] at hc
    exact List.mem_append.mp hc
  · rw [andThen_of_not_fits hfit] at hc
    exact .inl hc

theorem Named.andThen (hm : Named m) (hnext : ∀ rest, nodesIn (next rest).children = []) :
    Named (m.andThen next) := by
  by_cases hfit : m.fits
  · obtain ⟨u, hu, hmem⟩ := hm.name hfit
    refine ⟨?_, fun _ => ⟨u, hu, ?_⟩⟩
    · rw [children_andThen hfit, nodesIn_append, hm.nodes, hnext, List.nil_append]
    · rw [children_andThen hfit]
      exact List.mem_append_left _ hmem
  · rw [andThen_of_not_fits hfit]
    exact hm

theorem isSome_tokenOf? {n : ParseNode} {u : Token} {kind : TokenKind} (hu : u.kind = kind)
    (h : .token u ∈ n.children) : (n.tokenOf? kind).isSome := by
  rw [RuleNode.tokenOf?, List.findSome?_isSome_iff]
  exact ⟨.token u, h, by simp [hu]⟩

/-- The value of a set statement, with the variable before it. -/
theorem Named.value_cases (hm : Named m) :
    ∃ value : Option ParseNode,
      nodesIn (m.andThen (expectExpression source last)).children = value.toList ∧
        Parts Rule.expression value.toList ∧ (value = none ∨ ∃ u, u.kind = identifier ∧
          .token u ∈ (m.andThen (expectExpression source last)).children) := by
  by_cases hfit : m.fits
  · obtain ⟨value, hvalue, hparts⟩ := expectExpression_cases source last m.rest
    obtain ⟨u, hu, hmem⟩ := hm.name hfit
    rw [children_andThen hfit, nodesIn_append, hm.nodes, List.nil_append]
    exact ⟨value, hvalue, hparts, .inr ⟨u, hu, List.mem_append_left _ hmem⟩⟩
  · rw [andThen_of_not_fits hfit]
    exact ⟨none, hm.nodes, by simp [Parts], .inl rfl⟩

/-- Whatever follows a keyword, the statement is rendered. -/
theorem parts_statement (ht : startsStatement t) :
    Parts Rule.statement [(statement source last (t :: ts)).1] := by
  intro c hc
  obtain rfl := List.mem_singleton.mp hc
  rcases startsStatement_iff.mp ht with hk | hk | hk
  · obtain ⟨value, hvalue, hparts, hname⟩ := Named.value_cases source last
      ((named_expect last ts).andThen fun rest => nodesIn_expectAny last rest [equal] equal.name)
    rw [statement_of_set source last hk]
    refine ⟨rfl, renders_setStatement rfl hvalue ?_ hparts⟩
    rcases hname with rfl | ⟨u, hu, hmem⟩
    · exact .inl hvalue
    · exact .inr (isSome_tokenOf? hu (List.mem_cons_of_mem _ hmem))
  · obtain ⟨value, hvalue, hparts⟩ := expectExpression_cases source last ts
    rw [statement_of_display source last hk]
    exact ⟨rfl, renders_displayStatement rfl hvalue hparts⟩
  · have hnamed := ((named_expect last ts).andThen fun rest =>
      nodesIn_expectAny last rest [is] is.name).andThen fun rest =>
        nodesIn_expectAny last rest typeKeywords "\x7bint, dec, string\x7d"
    rw [statement_of_input source last hk]
    exact ⟨rfl, renders_inputDeclaration rfl hnamed.nodes⟩

theorem parts_statements (fuel : Nat) :
    Parts Rule.statement (nodesIn (statements source last fuel ts).1) := by
  induction fuel generalizing ts with
  | zero => cases ts <;> simp [statements, nodesIn, Parts]
  | succ fuel ih =>
    obtain _ | ⟨t, ts⟩ := ts
    · simp [statements, nodesIn, Parts]
    by_cases ht : startsStatement t
    · simp only [statements, ht, if_true]
      intro c hc
      rcases List.mem_cons.mp hc with rfl | hc
      · exact parts_statement source last ts ht _ (by simp)
      · exact ih _ c hc
    · simp only [statements, ht]
      exact ih ts

/-- Every tree that the parser builds is rendered one to one. -/
theorem renders_compilationUnit_parsed :
    lenient.Renders Serves (compilationUnit source last ts).1 := by
  refine renders_compilationUnit rfl fun c hc => ?_
  have hnodes : (compilationUnit source last ts).1.childNodes =
      nodesIn (statements source last ts.length ts).1 := by
    simp [compilationUnit, childNodes_ruleNode, nodesIn, ParseTree.node?]
  rw [hnodes] at hc
  exact parts_statements source last ts _ c hc

end Parser

/-- Whatever the tokens are, mapping the parsed tree with a new registry gives a tree whose nodes,
in the order of a walk, come from the rule nodes in their order, each under the node that comes
from the parent of its rule node. -/
theorem mapTree_follows_outline (s : TokenStream) (policy : ConflictPolicy) (f : Forest)
    (extra : Nat) :
    ∃ tree root issues w', (parseRule "compilationUnit" s).root = some tree ∧
      (transformer factories { allowGenericNode := true }).mapTree (tree.nodeCount + extra) tree
        { world := ⟨.empty policy, f⟩ } = (.ok (some root), issues, w') ∧
      (w'.world.forest.walk root).Nodup ∧
      (w'.world.forest.walk root).map (fun id => (w'.world.forest.node? id).bind (·.origin)) =
        tree.outline.map (fun (n, _) => some (.source (.tree n))) ∧
      (w'.world.forest.walk root).map w'.world.forest.parent? =
        tree.outline.map fun (_, above) => above.bind fun i => (w'.world.forest.walk root)[i]? := by
  obtain ⟨tree, hroot, hrenders⟩ : ∃ tree,
      (parseRule "compilationUnit" s).root = some tree ∧ lenient.Renders Serves tree :=
    ⟨_, rfl, renders_compilationUnit_parsed _ _ _⟩
  obtain ⟨w', hmap, hb⟩ := mapTree_of_renders registersErrors_serves rfl rfl hrenders
    (Nat.le_add_right tree.nodeCount extra)
    (w := { world := ⟨.empty policy, f⟩ }) ⟨agrees_blank, serves_empty policy⟩
  have hmirrors := (Forest.mirrorsAll_cons.mp hb.mirrors).1
  have hsize : w'.world.forest.size = f.size + tree.nodeCount := by
    simpa [ParseTree.countOf] using hb.size
  have hread := hmirrors.map_walk (Nat.le_of_eq hsize.symm)
  refine ⟨tree, f.size, w'.issues, _, hroot, hmap, ?_, ?_, ?_⟩
  · rw [hmirrors.walk_eq (Nat.le_of_eq hsize.symm)]
    exact List.nodup_range'
  · simpa [Function.comp_def] using congrArg (List.map Prod.fst) hread
  · simpa [Function.comp_def] using congrArg (List.map Prod.snd) hread

end Arbor.Script
