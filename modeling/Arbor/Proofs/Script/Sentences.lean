import Arbor.Proofs.Script.Derivation

/-!
Trees of programs. Tokens that derive from the grammar have one tree, with sums grouped to the left,
and the parser builds just that tree: it holds every token and no marker, and the stream behind it
is at its end.
-/
namespace Arbor.Script
open ParseTree

/-- Tokens of a sum and its tree. -/
inductive SumTree (source : String) : List Token → ParseNode → Prop
  | operand {t : Token} {rule : RuleKind} (hrule : operandRule? t = some rule) :
      SumTree source [t] (operand source rule t)
  | sum {ts : List Token} {left : ParseNode} {p t : Token} {rule : RuleKind}
      (hleft : SumTree source ts left) (hp : p.kind = plus) (hrule : operandRule? t = some rule) :
      SumTree source (ts ++ [p, t]) (sum source left [.token p, .node (operand source rule t)])

/-- Tokens of a statement and its tree. -/
inductive StatementTree (source : String) : List Token → ParseNode → Prop
  | set {k x q : Token} {ts : List Token} {value : ParseNode} (hk : k.kind = Script.set)
      (hx : x.kind = identifier) (hq : q.kind = equal) (hvalue : SumTree source ts value) :
      StatementTree source (k :: x :: q :: ts)
        (ruleNode source Rule.setStatement k [.token k, .token x, .token q, .node value])
  | display {k : Token} {ts : List Token} {value : ParseNode} (hk : k.kind = display)
      (hvalue : SumTree source ts value) :
      StatementTree source (k :: ts)
        (ruleNode source Rule.displayStatement k [.token k, .node value])
  | input {k x i y : Token} (hk : k.kind = input) (hx : x.kind = identifier) (hi : i.kind = is)
      (hy : y.kind ∈ typeKeywords) :
      StatementTree source [k, x, i, y]
        (ruleNode source Rule.inputDeclaration k [.token k, .token x, .token i, .token y])

/-- Tokens of statements one behind the other, and their trees. -/
inductive ProgramTrees (source : String) : List Token → List ParseNode → Prop
  | nil : ProgramTrees source [] []
  | cons {ts us : List Token} {n : ParseNode} {ns : List ParseNode}
      (hfirst : StatementTree source ts n) (hrest : ProgramTrees source us ns) :
      ProgramTrees source (ts ++ us) (n :: ns)

/-- The tree of a program that ends with the token `last`. -/
def programTree (source : String) (last : Token) (ts : List Token) (ns : List ParseNode) :
    ParseNode :=
  ruleNode source Rule.compilationUnit (currentOf last ts) (ns.map .node ++ [.token last])

section Parser
variable {source : String} (last : Token) {ts rest : List Token} {n : ParseNode}
  {ns : List ParseNode}

/-- Behind the tokens of a sum the parser goes on with its tree. -/
theorem SumTree.expression_eq (h : SumTree source ts n) (rest : List Token) :
    expression source last (ts ++ rest) = some (sumFrom source last n rest) := by
  induction h generalizing rest with
  | operand hrule => simp [expression, hrule]
  | @sum ts left p t rule _ hp hrule ih =>
    have hnext := ih (p :: t :: rest)
    rw [List.append_assoc, List.cons_append, List.cons_append, List.nil_append, hnext, sumFrom]
    simp only [hp, if_true, hrule]

theorem SumTree.expectExpression_eq (h : SumTree source ts n) (hrest : EndsSum rest) :
    expectExpression source last (ts ++ rest) = ⟨true, [.node n], [], rest⟩ := by
  rw [expectExpression, h.expression_eq, sumFrom_eq_of_endsSum source last hrest]

theorem StatementTree.statement_eq (h : StatementTree source ts n) (hrest : EndsSum rest) :
    statement source last (ts ++ rest) = (n, [], rest) := by
  cases h with
  | set hk hx hq hvalue =>
    have hsum := hvalue.expectExpression_eq last hrest
    simp only [List.cons_append]
    rw [statement_of_set source last hk]
    simp [expect, expectAny, hx, hq, Match.andThen, hsum, afterKeyword, finishRule]
  | display hk hvalue =>
    have hsum := hvalue.expectExpression_eq last hrest
    rw [List.cons_append, statement_of_display source last hk, hsum]
    rfl
  | input hk hx hi hy =>
    simp only [List.cons_append]
    rw [statement_of_input source last hk]
    simp [expect, expectAny, hx, hi, hy, Match.andThen, afterKeyword, finishRule]

theorem StatementTree.exists_cons (h : StatementTree source ts n) :
    ∃ k us, ts = k :: us ∧ startsStatement k := by
  cases h with
  | set hk _ _ _ => exact ⟨_, _, rfl, by simp [startsStatement, hk]⟩
  | display hk _ => exact ⟨_, _, rfl, by simp [startsStatement, hk]⟩
  | input hk _ _ _ => exact ⟨_, _, rfl, by simp [startsStatement, hk]⟩

theorem ProgramTrees.startsStatement_head (h : ProgramTrees source ts ns) :
    ∀ t ∈ ts.head?, startsStatement t := by
  intro t ht
  cases h with
  | nil => simp at ht
  | cons hfirst _ =>
    obtain ⟨k, us, rfl, hk⟩ := hfirst.exists_cons
    obtain rfl : k = t := by simpa using ht
    exact hk

theorem ProgramTrees.endsSum (h : ProgramTrees source ts ns) : EndsSum ts := by
  intro t ht hplus
  have hstart := h.startsStatement_head t ht
  simp [startsStatement, hplus, plus, Script.set, display, input] at hstart

theorem ProgramTrees.statements_eq (h : ProgramTrees source ts ns) {fuel : Nat}
    (hfuel : ts.length ≤ fuel) : statements source last fuel ts = (ns.map .node, [], []) := by
  induction h generalizing fuel with
  | nil => cases fuel <;> rfl
  | @cons ts us n ns hfirst hrest ih =>
    obtain ⟨k, front, rfl, hk⟩ := hfirst.exists_cons
    have hstatement := hfirst.statement_eq last hrest.endsSum
    rw [List.cons_append, List.length_cons, List.length_append] at hfuel
    obtain ⟨fuel, rfl⟩ : ∃ m, fuel = m + 1 := ⟨fuel - 1, by omega⟩
    rw [List.cons_append] at hstatement ⊢
    simp only [statements, hk, if_true, hstatement, ih (by omega : us.length ≤ fuel)]
    rfl

theorem ProgramTrees.compilationUnit_eq (h : ProgramTrees source ts ns) :
    compilationUnit source last ts = (programTree source last ts ns, [], []) := by
  rw [compilationUnit, h.statements_eq last (Nat.le_refl _)]
  rfl

end Parser

section Derivations
variable (source : String) {ts us : List Token} {n : ParseNode}

theorem SumTree.exists_append (h : SumTree source ts n) (hus : SumTail (kindsOf us)) :
    ∃ m, SumTree source (ts ++ us) m := by
  generalize hw : kindsOf us = w at hus
  induction hus generalizing ts n us with
  | nil =>
    obtain rfl := List.map_eq_nil_iff.mp hw
    exact ⟨n, by simpa using h⟩
  | cons hk _ ih =>
    obtain ⟨p, _, rfl, hp, htail⟩ := List.map_eq_cons_iff.mp hw
    obtain ⟨t, us, rfl, rfl, hus⟩ := List.map_eq_cons_iff.mp htail
    obtain ⟨rule, hrule⟩ := Option.isSome_iff_exists.mp (isSome_operandRule?_iff.mpr hk)
    obtain ⟨m, hm⟩ := ih (h.sum hp hrule) hus
    exact ⟨m, by simpa using hm⟩

theorem exists_sumTree (h : IsExpression (kindsOf ts)) : ∃ n, SumTree source ts n := by
  obtain ⟨k, v, hw, hk, hv⟩ := isExpression_iff.mp h
  obtain ⟨t, us, rfl, rfl, rfl⟩ := List.map_eq_cons_iff.mp hw
  obtain ⟨rule, hrule⟩ := Option.isSome_iff_exists.mp (isSome_operandRule?_iff.mpr hk)
  exact SumTree.exists_append source (.operand hrule) hv

theorem exists_statementTree (h : IsStatement (kindsOf ts)) : ∃ n, StatementTree source ts n := by
  generalize hw : kindsOf ts = w at h
  cases h with
  | setStatement hv =>
    obtain ⟨k, us, rfl, hk, hw⟩ := List.map_eq_cons_iff.mp hw
    obtain ⟨x, us, rfl, hx, hw⟩ := List.map_eq_cons_iff.mp hw
    obtain ⟨q, us, rfl, hq, rfl⟩ := List.map_eq_cons_iff.mp hw
    obtain ⟨value, hvalue⟩ := exists_sumTree source hv
    exact ⟨_, .set hk hx hq hvalue⟩
  | displayStatement hv =>
    obtain ⟨k, us, rfl, hk, rfl⟩ := List.map_eq_cons_iff.mp hw
    obtain ⟨value, hvalue⟩ := exists_sumTree source hv
    exact ⟨_, .display hk hvalue⟩
  | inputDeclaration hy =>
    obtain ⟨k, us, rfl, hk, hw⟩ := List.map_eq_cons_iff.mp hw
    obtain ⟨x, us, rfl, hx, hw⟩ := List.map_eq_cons_iff.mp hw
    obtain ⟨i, us, rfl, hi, hw⟩ := List.map_eq_cons_iff.mp hw
    obtain ⟨y, rfl, rfl⟩ := List.map_eq_singleton_iff.mp hw
    exact ⟨_, .input hk hx hi (by simpa [typeKeywords] using hy)⟩

theorem exists_programTrees (h : IsProgram (kindsOf ts)) : ∃ ns, ProgramTrees source ts ns := by
  generalize hw : kindsOf ts = w at h
  induction h generalizing ts with
  | nil =>
    obtain rfl := List.map_eq_nil_iff.mp hw
    exact ⟨[], .nil⟩
  | cons hu _ ih =>
    obtain ⟨front, back, rfl, rfl, hback⟩ := List.map_eq_append_iff.mp hw
    obtain ⟨n, hn⟩ := exists_statementTree source hu
    obtain ⟨ns, hns⟩ := ih hback
    exact ⟨n :: ns, .cons hn hns⟩

end Derivations

section Markers
variable {source : String} {ts : List Token} {n : ParseNode} {ns : List ParseNode}

theorem markers_ruleNode (rule : RuleKind) (t : Token) (children : List ParseTree) :
    (node (ruleNode source rule t children)).markers = markersOf children := rfl

theorem SumTree.markers_eq_nil (h : SumTree source ts n) : (node n).markers = [] := by
  induction h with
  | operand _ => rfl
  | sum _ _ _ ih =>
    rw [Script.sum, markers_ruleNode, markersOf, ih]
    rfl

theorem StatementTree.markers_eq_nil (h : StatementTree source ts n) : (node n).markers = [] := by
  cases h with
  | set _ _ _ hvalue =>
    simp only [markers_ruleNode, markersOf, hvalue.markers_eq_nil]
    rfl
  | display _ hvalue =>
    simp only [markers_ruleNode, markersOf, hvalue.markers_eq_nil]
    rfl
  | input _ _ _ _ => rfl

theorem ProgramTrees.errorMarkers_eq_nil (h : ProgramTrees source ts ns) (last : Token)
    (us : List Token) : (programTree source last us ns).errorMarkers = [] := by
  unfold RuleNode.errorMarkers programTree
  simp only [ruleNode]
  induction h with
  | nil => rfl
  | cons hfirst _ ih =>
    rw [List.map_cons, List.cons_append, markersOf, hfirst.markers_eq_nil, ih]
    rfl

end Markers

section Streams
open TokenStream

theorem pending_skipHidden (s : TokenStream) : s.skipHidden.pending = s.pending := by
  rw [pending, pending, skipHidden, ← List.drop_drop, filter_drop_hiddenRun]

/-- A step takes the first pending token; where there is none, the end is reached. -/
theorem advance_cases {s : TokenStream} (h : OnDefault s) :
    (s.pending = [] ∧ s.atEof) ∨
      ∃ t, s.pending = t :: s.advance.2.pending ∧ OnDefault s.advance.2 := by
  cases hdrop : s.tokens.drop s.cursor with
  | nil => exact .inl (by simp [pending, hdrop, atEof, current?_eq_head?])
  | cons t rest =>
    have hcurrent : s.current? = some t := by rw [current?_eq_head?, hdrop, List.head?_cons]
    have ht : t.isDefault := h t hcurrent
    by_cases heof : t.isEof
    · exact .inl (by simp [pending, hdrop, ht, heof, atEof, hcurrent])
    · have hnext : s.advance.2 = skipHidden { s with cursor := s.cursor + 1 } := by
        simp [advance, hcurrent, heof]
      have hrest : s.tokens.drop (s.cursor + 1) = rest := by
        rw [← List.tail_drop, hdrop, List.tail_cons]
      refine .inr ⟨t, ?_, hnext ▸ onDefault_skipHidden _⟩
      rw [hnext, pending_skipHidden, pending, pending, hdrop, hrest]
      simp [ht, heof]

/-- Once all pending tokens are taken, a stream is at its end. -/
theorem atEof_leave {s : TokenStream} (h : OnDefault s) : (leave s []).atEof := by
  rw [leave, List.length_nil, Nat.sub_zero]
  generalize hlen : s.pending.length = count
  induction count generalizing s with
  | zero =>
    rcases advance_cases h with ⟨-, hend⟩ | ⟨t, hpending, -⟩
    · exact hend
    · simp [hpending] at hlen
  | succ count ih =>
    rcases advance_cases h with ⟨hnone, -⟩ | ⟨t, hpending, hnext⟩
    · simp [hnone] at hlen
    · refine ih hnext ?_
      rw [hpending, List.length_cons] at hlen
      omega

end Streams

end Arbor.Script
