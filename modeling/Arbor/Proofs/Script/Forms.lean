import Arbor.Proofs.Script.Names

/-!
The forms of rule nodes. Whatever the tokens are, parsing puts rule nodes together in four ways
only: an operand over its one token, a sum over what is on its left, a statement and the unit. Each
keeps the whole source. What is said of all rule nodes of a tree is said of these forms.
-/
namespace Arbor.Script

/-- The rules of single tokens. -/
def operandRules : List RuleKind :=
  [Rule.intLiteral, Rule.decLiteral, Rule.stringLiteral, Rule.valueReference]

theorem operandRule?_mem_operandRules {t : Token} {rule : RuleKind}
    (h : operandRule? t = some rule) : rule ∈ operandRules := by
  rcases operandRule?_cases h with ⟨-, rfl⟩ | ⟨-, hliteral⟩
  · decide
  · exact List.mem_append_left [Rule.valueReference] hliteral

/-- The rule nodes that parsing puts together, and those below them. -/
inductive Formed (source : String) : ParseNode → Prop
  | operand {t : Token} {rule : RuleKind} (hrule : operandRule? t = some rule) :
      Formed source (operand source rule t)
  | sum {left : ParseNode} {children : List ParseTree} (hleft : Formed source left)
      (hbelow : ∀ c ∈ nodesIn children, Formed source c) : Formed source (sum source left children)
  | statement {rule : RuleKind} {k : Token} {children : List ParseTree}
      (hrule : rule ∈ statementRules) (hbelow : ∀ c ∈ nodesIn children, Formed source c) :
      Formed source (ruleNode source rule k children)
  | unit {t : Token} {children : List ParseTree}
      (hbelow : ∀ c ∈ nodesIn children, Formed source c) :
      Formed source (ruleNode source Rule.compilationUnit t children)

section Nodes
variable {source : String} {n : ParseNode}

theorem Formed.childNodes (h : Formed source n) : ∀ c ∈ n.childNodes, Formed source c := by
  cases h with
  | operand => simp [Script.operand, childNodes_ruleNode, nodesIn, ParseTree.node?]
  | @sum left children hleft hbelow =>
    have hnodes : (Script.sum source left children).childNodes = left :: nodesIn children := rfl
    rw [hnodes]
    exact List.forall_mem_cons.mpr ⟨hleft, hbelow⟩
  | statement _ hbelow => exact hbelow
  | unit hbelow => exact hbelow

/-- All rule nodes of a tree are of one of the forms. -/
theorem Formed.preorder (h : Formed source n) : ∀ c ∈ n.preorder, Formed source c := by
  induction hsize : n.nodeCount using Nat.strongRecOn generalizing n with
  | _ size ih =>
    intro c hc
    rw [RuleNode.preorder_eq] at hc
    rcases List.mem_cons.mp hc with rfl | hc
    · exact h
    · obtain ⟨d, hd, hc⟩ := List.mem_flatMap.mp hc
      have hlt := RuleNode.nodeCount_lt_of_mem hd
      exact ih d.nodeCount (hsize ▸ hlt) (h.childNodes d hd) rfl c hc

theorem Formed.input_eq (h : Formed source n) : n.input = source := by
  cases h <;> rfl

theorem Formed.rule_mem (h : Formed source n) :
    n.rule = Rule.compilationUnit ∨ n.rule ∈ statementRules ∨ n.rule = Rule.sumExpression ∨
      n.rule ∈ operandRules := by
  cases h with
  | operand hrule => exact .inr (.inr (.inr (operandRule?_mem_operandRules hrule)))
  | sum => exact .inr (.inr (.inl rfl))
  | statement hrule => exact .inr (.inl hrule)
  | unit => exact .inl rfl

/-- Literals and uses of variables are nodes over one token. -/
theorem Formed.eq_operand (h : Formed source n) (hrule : n.rule ∈ operandRules) :
    ∃ t, operandRule? t = some n.rule ∧ n = Script.operand source n.rule t := by
  have hapart : ∀ rule ∈ Rule.compilationUnit :: Rule.sumExpression :: statementRules,
      rule ∉ operandRules := by decide
  cases h with
  | @operand t rule hkind => exact ⟨t, hkind, rfl⟩
  | sum => exact absurd hrule (hapart Rule.sumExpression (by decide))
  | @statement rule k children hother =>
    exact absurd hrule (hapart rule (List.mem_cons_of_mem _ (List.mem_cons_of_mem _ hother)))
  | unit => exact absurd hrule (hapart Rule.compilationUnit (by decide))

end Nodes

section Parser
variable (source : String) (last : Token) {t : Token}

theorem formed_sumFrom {left : ParseNode} (hleft : Formed source left) (ts : List Token) :
    Formed source (sumFrom source last left ts).1 := by
  have hbroken : ∀ {left} (_ : Formed source left) t us, Formed source
      (sum source left (.token t :: (mismatch last "expression" us).children)) := by
    intro left hleft t us
    refine .sum hleft fun c hc => ?_
    have hc : c ∈ nodesIn (mismatch last "expression" us).children := hc
    rw [nodesIn_mismatch] at hc
    cases hc
  fun_induction sumFrom source last left ts with
  | case1 => exact hleft
  | case2 left t => exact hbroken hleft t []
  | case3 => exact hleft
  | case4 left t u rest _ rule hrule ih =>
    refine ih (.sum hleft fun c hc => ?_)
    obtain rfl : operand source rule u = c := by simpa [nodesIn, ParseTree.node?] using hc
    exact .operand hrule
  | case5 left t u rest => exact hbroken hleft t (u :: rest)
  | case6 => exact hleft

/-- The rule nodes of a part of a rule are of the forms. -/
def Forms (next : List Token → Match) : Prop :=
  ∀ ts, ∀ c ∈ nodesIn (next ts).children, Formed source c

theorem forms_expectAny (kinds : List TokenKind) (expected : String) :
    Forms source (expectAny last kinds expected) := by
  intro ts c hc
  rw [nodesIn_expectAny] at hc
  cases hc

theorem forms_expectExpression : Forms source (expectExpression source last) := by
  intro ts c hc
  obtain ⟨t, rest, rule, rfl, hrule, rfl⟩ := mem_nodesIn_expectExpression source last ts hc
  exact formed_sumFrom source last (.operand hrule) rest

variable {source} in
theorem Forms.andThen {first next : List Token → Match} (hf : Forms source first)
    (hn : Forms source next) : Forms source fun ts => (first ts).andThen next := by
  intro ts c hc
  rcases mem_nodesIn_andThen hc with hc | hc
  · exact hf ts c hc
  · exact hn _ c hc

theorem formed_statement (ht : startsStatement t) (ts : List Token) :
    Formed source (statement source last (t :: ts)).1 := by
  obtain ⟨rule, hrule, next, hnext, heq⟩ := exists_part_of_keyword source last
    (fun kinds _ => forms_expectAny source last kinds) (forms_expectExpression source last)
    Forms.andThen ht
  rw [heq]
  exact .statement hrule (hnext ts)

theorem formed_statements (fuel : Nat) (ts : List Token) :
    ∀ c ∈ nodesIn (statements source last fuel ts).1, Formed source c := by
  induction fuel generalizing ts with
  | zero => cases ts <;> simp [statements, nodesIn]
  | succ fuel ih =>
    obtain _ | ⟨t, ts⟩ := ts
    · simp [statements, nodesIn]
    by_cases ht : startsStatement t
    · simp only [statements, ht, if_true]
      exact List.forall_mem_cons.mpr ⟨formed_statement source last ht ts, ih _⟩
    · simp only [statements, ht]
      exact ih ts

theorem formed_compilationUnit (ts : List Token) :
    Formed source (compilationUnit source last ts).1 := by
  refine .unit fun c hc => ?_
  rw [nodesIn_append] at hc
  rcases List.mem_append.mp hc with hc | hc
  · exact formed_statements source last _ ts c hc
  · simp [nodesIn, ParseTree.node?] at hc

end Parser

theorem formed_treeOf (input : String) : Formed input (treeOf input) :=
  formed_compilationUnit input _ _

end Arbor.Script
