import Arbor.Proofs.Script.Faithful
import Arbor.Proofs.Script.Tiling

/-!
Which tokens a rule node holds, and the range it covers. Whatever the tokens are, a rule takes a run
of them and holds each one once, so it ends with the last one, and the rule nodes under it hold runs
that follow each other. The tokens of a text lie one behind the other, and with them the ranges of
rule nodes: each lies inside the one above it, and siblings do not overlap.
-/
namespace Arbor

namespace ParseTree

mutual

/-- The tokens of a tree in their order, without those that are only marked. -/
def leaves : ParseTree → List Token
  | .token t => [t]
  | .error _ => []
  | .node ⟨_, children, _, _, _⟩ => leavesOf children

def leavesOf : List ParseTree → List Token
  | [] => []
  | t :: rest => t.leaves ++ leavesOf rest

end

@[simp] theorem leavesOf_nil : leavesOf [] = [] := rfl

@[simp] theorem leavesOf_cons (t : ParseTree) (rest : List ParseTree) :
    leavesOf (t :: rest) = t.leaves ++ leavesOf rest := rfl

@[simp] theorem leaves_token (t : Token) : (token t).leaves = [t] := rfl

@[simp] theorem leaves_error (m : ErrorMarker) : (error m).leaves = [] := rfl

theorem leavesOf_append (children more : List ParseTree) :
    leavesOf (children ++ more) = leavesOf children ++ leavesOf more := by
  induction children with
  | nil => rfl
  | cons t rest ih => simp [ih]

theorem leavesOf_map_token (ts : List Token) : leavesOf (ts.map token) = ts := by
  induction ts with
  | nil => rfl
  | cons t rest ih => simp [ih]

end ParseTree

namespace RuleNode
open ParseTree

def leaves (n : ParseNode) : List Token := leavesOf n.children

@[simp] theorem leaves_node (n : ParseNode) : (ParseTree.node n).leaves = n.leaves := rfl

theorem leaves_childNodes_sublist (n : ParseNode) :
    (n.childNodes.flatMap leaves).Sublist n.leaves := by
  unfold childNodes leaves
  induction n.children with
  | nil => simp
  | cons t rest ih =>
    cases t with
    | token t => exact ih.trans (List.sublist_append_right _ _)
    | error m => exact ih
    | node c => exact (List.Sublist.refl _).append ih

theorem leaves_sublist_of_mem {n c : ParseNode} (h : c ∈ n.childNodes) :
    c.leaves.Sublist n.leaves := by
  refine List.Sublist.trans ?_ n.leaves_childNodes_sublist
  exact List.sublist_flatten_of_mem (List.mem_map_of_mem h)

end RuleNode

/-- Tokens in the order of their numbers. -/
def Ascending (ts : List Token) : Prop := ts.Pairwise fun t u => t.index < u.index

/-- Tokens one behind the other in the text, too. -/
def InLine (ts : List Token) : Prop :=
  ts.Pairwise fun t u => t.index < u.index ∧ t.stop ≤ u.start

section Order
variable {ts us : List Token} {t u x : Token}

theorem Ascending.sublist (h : Ascending ts) (hus : us.Sublist ts) : Ascending us :=
  List.Pairwise.sublist hus h

theorem InLine.sublist (h : InLine ts) (hus : us.Sublist ts) : InLine us :=
  List.Pairwise.sublist hus h

theorem InLine.ascending (h : InLine ts) : Ascending ts := h.imp fun h => h.1

theorem start_le_stop (t : Token) : t.start ≤ t.stop := Point.le_advanceChars _ _

theorem InLine.start_le (h : InLine ts) (ht : ts.head? = some t) (hx : x ∈ ts) :
    t.index ≤ x.index ∧ t.start ≤ x.start := by
  obtain ⟨rest, rfl⟩ := List.head?_eq_some_iff.mp ht
  rcases List.mem_cons.mp hx with rfl | hx
  · exact ⟨Nat.le_refl _, Point.le_refl _⟩
  · obtain ⟨hindex, hplace⟩ := (List.pairwise_cons.mp h).1 x hx
    exact ⟨Nat.le_of_lt hindex, Point.le_trans (start_le_stop t) hplace⟩

theorem InLine.le_stop (h : InLine ts) (hu : ts.getLast? = some u) (hx : x ∈ ts) :
    x.stop ≤ u.stop := by
  obtain ⟨front, rfl⟩ := List.getLast?_eq_some_iff.mp hu
  rcases List.mem_append.mp hx with hx | hx
  · have hplace := (List.pairwise_append.mp h).2.2 x hx u (by simp)
    exact Point.le_trans hplace.2 (start_le_stop u)
  · obtain rfl := List.mem_singleton.mp hx
    exact Point.le_refl _

end Order

namespace Script
open ParseTree

/-- A rule node that begins with its first token and ends with its last one, and so all below it. -/
inductive Spanned : ParseNode → Prop
  | intro {n : ParseNode} (hstart : n.leaves.head? = some n.start)
      (hstop : n.stop = n.leaves.getLast?) (hbelow : ∀ c ∈ n.childNodes, Spanned c) : Spanned n

theorem Spanned.stop_eq {n : ParseNode} (h : Spanned n) : n.stop = n.leaves.getLast? := by
  obtain ⟨-, hstop, -⟩ := h
  exact hstop

section Stops

theorem laterToken_of_lt {stop : Option Token} {t : Token} (h : ∀ s ∈ stop, s.index < t.index) :
    laterToken stop t = some t := by
  cases stop with
  | none => rfl
  | some s => simp [laterToken, h s rfl]

theorem extendStop_eq {stop : Option Token} {t : ParseTree}
    (hnode : ∀ n, t.node? = some n → n.stop = n.leaves.getLast?)
    (h : ∀ s ∈ stop, ∀ u ∈ t.leaves, s.index < u.index) :
    extendStop stop t = t.leaves.getLast?.or stop := by
  cases t with
  | token t => simpa [extendStop] using laterToken_of_lt fun s hs => h s hs t (by simp)
  | error m => rfl
  | node n =>
    have hstop := hnode n rfl
    simp only [extendStop, hstop, RuleNode.leaves_node]
    cases hlast : n.leaves.getLast? with
    | none => rfl
    | some u =>
      exact laterToken_of_lt fun s hs => h s hs u (List.mem_of_getLast? hlast)

/-- The last token of a rule is the last one that it holds. -/
theorem stopOf_eq {children : List ParseTree} (hnodes : ∀ c ∈ nodesIn children, Spanned c)
    (h : Ascending (leavesOf children)) : stopOf children = (leavesOf children).getLast? := by
  induction children using List.reverseRecOn with
  | nil => rfl
  | append_singleton children t ih =>
    rw [nodesIn_append] at hnodes
    rw [leavesOf_append, leavesOf_cons, leavesOf_nil, List.append_nil] at h ⊢
    have hpair := List.pairwise_append.mp h
    have hfront := ih (fun c hc => hnodes c (List.mem_append_left _ hc)) hpair.1
    rw [stopOf] at hfront
    rw [stopOf, List.foldl_append, List.foldl_cons, List.foldl_nil, hfront, extendStop_eq,
      List.getLast?_append]
    · intro n hn
      exact (hnodes n (List.mem_append_right _ (by simp [nodesIn, hn]))).stop_eq
    · intro s hs u hu
      exact hpair.2.2 s (List.mem_of_getLast? hs) u hu

theorem spanned_ruleNode (source : String) (rule : RuleKind) {t : Token}
    {children : List ParseTree} (hstart : (leavesOf children).head? = some t)
    (hnodes : ∀ c ∈ nodesIn children, Spanned c) (h : Ascending (leavesOf children)) :
    Spanned (ruleNode source rule t children) :=
  .intro hstart (stopOf_eq hnodes h) hnodes

end Stops

section Parser
variable (source : String) (last : Token) {t : Token} {ts : List Token}

/-- A part of a rule holds the tokens that it takes. -/
def Holds (next : List Token → Match) : Prop :=
  ∀ ts, leavesOf (next ts).children ++ (next ts).rest = ts

/-- The rule nodes of a part of a rule span their tokens. -/
def Spans (next : List Token → Match) : Prop :=
  ∀ ts, Ascending ts → ∀ c ∈ nodesIn (next ts).children, Spanned c

theorem holds_mismatch (expected : String) : Holds (mismatch last expected) := by
  intro ts
  simp [mismatch, leavesOf_map_token, List.takeWhile_append_dropWhile]

theorem holds_expectAny (kinds : List TokenKind) (expected : String) :
    Holds (expectAny last kinds expected) := by
  intro ts
  unfold expectAny
  split
  · exact holds_mismatch last expected []
  · split
    · rfl
    · exact holds_mismatch last expected _

theorem spans_expectAny (kinds : List TokenKind) (expected : String) :
    Spans (expectAny last kinds expected) := by
  intro ts _ c hc
  simp [nodesIn_expectAny] at hc

variable {first next : List Token → Match}

theorem Holds.andThen (hf : Holds first) (hn : Holds next) :
    Holds fun ts => (first ts).andThen next := by
  intro ts
  by_cases hfit : (first ts).fits
  · have hfirst := hf ts
    have hnext := hn (first ts).rest
    simp only [Match.andThen, hfit, if_true, leavesOf_append]
    rw [List.append_assoc, hnext, hfirst]
  · simp only [andThen_of_not_fits hfit]
    exact hf ts

theorem Spans.andThen (hf : Holds first) (hs : Spans first) (hn : Spans next) :
    Spans fun ts => (first ts).andThen next := by
  intro ts hts c hc
  rcases mem_nodesIn_andThen hc with hc | hc
  · exact hs ts hts c hc
  · rw [← hf ts] at hts
    exact hn _ (hts.sublist (List.sublist_append_right _ _)) c hc

theorem leaves_operand (rule : RuleKind) : (operand source rule t).leaves = [t] := rfl

theorem spanned_operand (rule : RuleKind) : Spanned (operand source rule t) :=
  .intro rfl rfl (by simp [operand, childNodes_ruleNode, nodesIn, ParseTree.node?])

theorem leaves_sum (left : ParseNode) (children : List ParseTree) :
    (sum source left children).leaves = left.leaves ++ leavesOf children := rfl

theorem spanned_sum {left : ParseNode} {children : List ParseTree} (hleft : Spanned left)
    (hnodes : ∀ c ∈ nodesIn children, Spanned c)
    (h : Ascending (left.leaves ++ leavesOf children)) : Spanned (sum source left children) := by
  refine spanned_ruleNode source _ ?_ ?_ h
  · obtain ⟨hstart, -, -⟩ := hleft
    simp [hstart]
  · intro c hc
    rcases List.mem_cons.mp hc with rfl | hc
    · exact hleft
    · exact hnodes c hc

theorem leaves_brokenSum (left : ParseNode) (t : Token) (rest : List Token) :
    (sum source left (.token t :: (mismatch last "expression" rest).children)).leaves ++
      (mismatch last "expression" rest).rest = left.leaves ++ t :: rest := by
  have hrest := holds_mismatch last "expression" rest
  simp [leaves_sum, hrest]

theorem spanned_brokenSum {left : ParseNode} {rest : List Token} (hleft : Spanned left)
    (h : Ascending (left.leaves ++ t :: rest)) :
    Spanned (sum source left (.token t :: (mismatch last "expression" rest).children)) := by
  refine spanned_sum source hleft ?_ ?_
  · intro c hc
    change c ∈ nodesIn (mismatch last "expression" rest).children at hc
    simp [nodesIn_mismatch] at hc
  · rw [← leaves_brokenSum source last] at h
    exact h.sublist (List.sublist_append_left _ _)

theorem leaves_sumFrom (left : ParseNode) (ts : List Token) :
    (sumFrom source last left ts).1.leaves ++ (sumFrom source last left ts).2.2 =
      left.leaves ++ ts := by
  fun_induction sumFrom source last left ts with
  | case1 => rfl
  | case2 left t => exact leaves_brokenSum source last left t []
  | case3 => rfl
  | case4 left t u rest _ rule hrule ih => simpa [leaves_sum, leaves_operand] using ih
  | case5 left t u rest => exact leaves_brokenSum source last left t (u :: rest)
  | case6 => rfl

theorem spanned_sumFrom {left : ParseNode} (hleft : Spanned left)
    (h : Ascending (left.leaves ++ ts)) : Spanned (sumFrom source last left ts).1 := by
  fun_induction sumFrom source last left ts with
  | case1 => exact hleft
  | case2 left t => exact spanned_brokenSum source last hleft h
  | case3 => exact hleft
  | case4 left t u rest _ rule hrule ih =>
    have hsum : Ascending (left.leaves ++ leavesOf [.token t, .node (operand source rule u)]) := by
      refine h.sublist ?_
      simp [leaves_operand]
    refine ih (spanned_sum source hleft ?_ hsum) ?_
    · intro c hc
      obtain rfl : operand source rule u = c := by simpa [nodesIn, ParseTree.node?] using hc
      exact spanned_operand source rule
    · simpa [leaves_sum, leaves_operand] using h
  | case5 left t u rest => exact spanned_brokenSum source last hleft h
  | case6 => exact hleft

theorem holds_expectExpression : Holds (expectExpression source last) := by
  intro ts
  unfold expectExpression
  split
  · next n issues rest he =>
    obtain _ | ⟨t, ts⟩ := ts
    · simp [expression] at he
    obtain ⟨rule, hrule, he⟩ := Option.map_eq_some_iff.mp he
    have hsum := leaves_sumFrom source last (operand source rule t) ts
    rw [he] at hsum
    simpa [leaves_operand] using hsum
  · exact holds_mismatch last "expression" ts

theorem spans_expectExpression : Spans (expectExpression source last) := by
  intro ts hts c hc
  obtain ⟨t, rest, rule, rfl, hrule, rfl⟩ := mem_nodesIn_expectExpression source last ts hc
  exact spanned_sumFrom source last (spanned_operand source rule) hts

/-- What follows the keyword of a statement, as one part. -/
theorem exists_spanning_part (ht : startsStatement t) :
    ∃ rule ∈ statementRules, ∃ next, (Holds next ∧ Spans next) ∧
      ∀ ts, statement source last (t :: ts) = afterKeyword source rule t (next ts) :=
  exists_part_of_keyword source last
    (fun kinds _ expected => ⟨holds_expectAny last kinds expected,
      spans_expectAny last kinds expected⟩)
    ⟨holds_expectExpression source last, spans_expectExpression source last⟩
    (fun hf hn => ⟨hf.1.andThen hn.1, hf.2.andThen hf.1 hn.2⟩) ht

theorem leaves_statement (ht : startsStatement t) (ts : List Token) :
    (statement source last (t :: ts)).1.leaves ++ (statement source last (t :: ts)).2.2 =
      t :: ts := by
  obtain ⟨rule, -, next, ⟨hholds, -⟩, heq⟩ := exists_spanning_part source last ht
  rw [heq]
  exact congrArg (t :: ·) (hholds ts)

/-- A statement takes at least its keyword. -/
theorem length_rest_statement_le (ht : startsStatement t) (ts : List Token) :
    (statement source last (t :: ts)).2.2.length ≤ ts.length := by
  obtain ⟨rule, -, next, ⟨hholds, -⟩, heq⟩ := exists_spanning_part source last ht
  have hlength := congrArg List.length (hholds ts)
  rw [List.length_append] at hlength
  rw [heq]
  show (next ts).rest.length ≤ ts.length
  omega

theorem spanned_statement (ht : startsStatement t) (h : Ascending (t :: ts)) :
    Spanned (statement source last (t :: ts)).1 := by
  obtain ⟨rule, -, next, ⟨hholds, hspans⟩, heq⟩ := exists_spanning_part source last ht
  rw [heq]
  have htaken : Ascending (t :: leavesOf (next ts).children) := by
    rw [← hholds ts] at h
    refine h.sublist ?_
    simp
  exact spanned_ruleNode source rule rfl (hspans ts (List.pairwise_cons.mp h).2) htaken

theorem leaves_statements (fuel : Nat) (ts : List Token) :
    (leavesOf (statements source last fuel ts).1).Sublist ts := by
  induction fuel generalizing ts with
  | zero => cases ts <;> simp [statements]
  | succ fuel ih =>
    obtain _ | ⟨t, ts⟩ := ts
    · simp [statements]
    by_cases ht : startsStatement t
    · have htaken := leaves_statement source last ht ts
      have hrest := ih (statement source last (t :: ts)).2.2
      simp only [statements, ht, if_true, leavesOf_cons, RuleNode.leaves_node]
      nth_rewrite 3 [← htaken]
      exact (List.Sublist.refl _).append hrest
    · simp only [statements, ht]
      exact (ih ts).cons t

theorem spanned_statements (fuel : Nat) {ts : List Token} (h : Ascending ts) :
    ∀ c ∈ nodesIn (statements source last fuel ts).1, Spanned c := by
  induction fuel generalizing ts with
  | zero => cases ts <;> simp [statements, nodesIn]
  | succ fuel ih =>
    obtain _ | ⟨t, ts⟩ := ts
    · simp [statements, nodesIn]
    intro c hc
    by_cases ht : startsStatement t
    · have hrest : Ascending (statement source last (t :: ts)).2.2 := by
        rw [← leaves_statement source last ht ts] at h
        exact h.sublist (List.sublist_append_right _ _)
      simp only [statements, ht, if_true] at hc
      rcases List.mem_cons.mp hc with rfl | hc
      · exact spanned_statement source last ht h
      · exact ih hrest c hc
    · simp only [statements, ht] at hc
      exact ih (List.pairwise_cons.mp h).2 c hc

/-- With a step for each token no token is left. -/
theorem rest_statements {fuel : Nat} {ts : List Token} (hfuel : ts.length ≤ fuel) :
    (statements source last fuel ts).2.2 = [] := by
  induction fuel generalizing ts with
  | zero =>
    obtain rfl := List.length_eq_zero_iff.mp (Nat.le_zero.mp hfuel)
    rfl
  | succ fuel ih =>
    obtain _ | ⟨t, ts⟩ := ts
    · rfl
    rw [List.length_cons, Nat.add_le_add_iff_right] at hfuel
    by_cases ht : startsStatement t
    · have hshort := length_rest_statement_le source last ht ts
      simp only [statements, ht, if_true]
      exact ih (hshort.trans hfuel)
    · simp only [statements, ht]
      exact ih hfuel

theorem rest_compilationUnit (ts : List Token) : (compilationUnit source last ts).2.2 = [] :=
  rest_statements source last (Nat.le_refl ts.length)

/-- A unit closes with the token that ends the input. -/
theorem children_compilationUnit (ts : List Token) :
    (compilationUnit source last ts).1.children =
      (statements source last ts.length ts).1 ++ [.token last] := by
  have hrest := rest_statements source last (Nat.le_refl ts.length)
  show _ ++ [token (currentOf last (statements source last ts.length ts).2.2)] = _
  rw [hrest]
  rfl

theorem leaves_compilationUnit (ts : List Token) :
    (compilationUnit source last ts).1.leaves.Sublist (ts ++ [last]) := by
  rw [RuleNode.leaves, children_compilationUnit, leavesOf_append]
  exact (leaves_statements source last ts.length ts).append (List.Sublist.refl _)

theorem spanned_below_compilationUnit (h : Ascending (ts ++ [last])) :
    ∀ c ∈ (compilationUnit source last ts).1.childNodes, Spanned c := by
  intro c hc
  change c ∈ nodesIn (compilationUnit source last ts).1.children at hc
  rw [children_compilationUnit, nodesIn_append] at hc
  rcases List.mem_append.mp hc with hc | hc
  · exact spanned_statements source last ts.length (h.sublist (List.sublist_append_left _ _)) c hc
  · simp [nodesIn, ParseTree.node?] at hc

/-- The unit reaches to the end of the input. -/
theorem stop_compilationUnit (h : Ascending (ts ++ [last])) :
    (compilationUnit source last ts).1.stop = some last := by
  have hstop : (compilationUnit source last ts).1.stop =
      (leavesOf (compilationUnit source last ts).1.children).getLast? :=
    stopOf_eq (spanned_below_compilationUnit source last h)
      (h.sublist (leaves_compilationUnit source last ts))
  rw [hstop, children_compilationUnit, leavesOf_append]
  exact List.getLast?_concat

end Parser

section Ranges

/-- A rule node with a proper range, inside which the rule nodes under it lie one behind the
other. -/
inductive Nested : ParseNode → Prop
  | intro {n : ParseNode} (hvalid : n.position.isValid)
      (hinside : ∀ c ∈ n.childNodes, n.position.contains c.position)
      (horder : n.childNodes.Pairwise fun a b => a.position.stop ≤ b.position.start)
      (hbelow : ∀ c ∈ n.childNodes, Nested c) : Nested n

variable {ts : List Token} {t u : Token} {n : ParseNode}

theorem position_of_bounds (h : InLine ts) (ht : ts.head? = some t) (hu : ts.getLast? = some u)
    (hstart : n.start = t) (hstop : n.stop = some u) : n.position = ⟨t.start, u.stop⟩ := by
  have hindex := (h.start_le ht (List.mem_of_getLast? hu)).1
  simp [RuleNode.position, hstart, hstop, hindex]

theorem Spanned.exists_bounds (h : Spanned n) (hline : InLine n.leaves) :
    ∃ t u, n.leaves.head? = some t ∧ n.leaves.getLast? = some u ∧
      n.position = ⟨t.start, u.stop⟩ := by
  obtain ⟨hstart, hstop, -⟩ := h
  obtain ⟨rest, hleaves⟩ := List.head?_eq_some_iff.mp hstart
  obtain ⟨u, hu⟩ : ∃ u, n.leaves.getLast? = some u := by
    rw [hleaves]
    exact ⟨_, List.getLast?_cons⟩
  exact ⟨n.start, u, hstart, hu, position_of_bounds hline hstart hu rfl (hstop.trans hu)⟩

/-- Rule nodes under one that covers the tokens `ts` lie inside it, one behind the other. -/
theorem nested_of_bounds (h : InLine ts) (hvalid : ∀ x ∈ ts, x.start.isValid)
    (ht : ts.head? = some t) (hu : ts.getLast? = some u)
    (hposition : n.position = ⟨t.start, u.stop⟩)
    (hleaves : (n.childNodes.flatMap RuleNode.leaves).Sublist ts)
    (hspanned : ∀ c ∈ n.childNodes, Spanned c)
    (hbelow : ∀ c ∈ n.childNodes, InLine c.leaves → (∀ x ∈ c.leaves, x.start.isValid) → Nested c) :
    Nested n := by
  have hchildren : InLine (n.childNodes.flatMap RuleNode.leaves) := h.sublist hleaves
  obtain ⟨heach, hcross⟩ := List.pairwise_flatMap.mp hchildren
  have hmem : ∀ c ∈ n.childNodes, ∀ x ∈ c.leaves, x ∈ ts := fun c hc x hx =>
    hleaves.subset (List.mem_flatMap.mpr ⟨c, hc, hx⟩)
  refine .intro ?_ ?_ ?_ ?_
  · have htu := Point.le_trans (h.start_le ht (List.mem_of_getLast? hu)).2 (start_le_stop u)
    have hfirst := hvalid t (List.mem_of_head? ht)
    rw [hposition]
    simp [Position.isValid, hfirst, Point.isValid_of_le htu hfirst, htu]
  · intro c hc
    obtain ⟨a, b, ha, hb, hc'⟩ := (hspanned c hc).exists_bounds (heach c hc)
    have hleft := (h.start_le ht (hmem c hc a (List.mem_of_head? ha))).2
    have hright := h.le_stop hu (hmem c hc b (List.mem_of_getLast? hb))
    rw [hposition, hc']
    simp [Position.contains, hleft, hright]
  · refine hcross.imp_of_mem fun {c d} hc hd hcd => ?_
    obtain ⟨_, b, -, hb, hc'⟩ := (hspanned c hc).exists_bounds (heach c hc)
    obtain ⟨a, _, ha, -, hd'⟩ := (hspanned d hd).exists_bounds (heach d hd)
    rw [hc', hd']
    exact (hcd b (List.mem_of_getLast? hb) a (List.mem_of_head? ha)).2
  · exact fun c hc => hbelow c hc (heach c hc) fun x hx => hvalid x (hmem c hc x hx)

theorem nested_of_spanned (h : Spanned n) (hline : InLine n.leaves)
    (hvalid : ∀ x ∈ n.leaves, x.start.isValid) : Nested n := by
  induction h with
  | @intro n hstart hstop hspanned ih =>
    obtain ⟨t, u, ht, hu, hposition⟩ :=
      (Spanned.intro hstart hstop hspanned).exists_bounds hline
    exact nested_of_bounds hline hvalid ht hu hposition n.leaves_childNodes_sublist hspanned ih

theorem nested_compilationUnit (source : String) (last : Token) (ts : List Token)
    (h : InLine (ts ++ [last])) (hvalid : ∀ x ∈ ts ++ [last], x.start.isValid) :
    Nested (compilationUnit source last ts).1 := by
  have hheld := leaves_compilationUnit source last ts
  have hspanned := spanned_below_compilationUnit source last h.ascending
  have hhead : (ts ++ [last]).head? = some (currentOf last ts) := by
    cases ts <;> rfl
  have hposition := position_of_bounds h hhead (by simp)
    (n := (compilationUnit source last ts).1) rfl (stop_compilationUnit source last h.ascending)
  refine nested_of_bounds h hvalid hhead (by simp) hposition ?_ hspanned
    fun c hc hline hvalid => nested_of_spanned (hspanned c hc) hline hvalid
  exact (RuleNode.leaves_childNodes_sublist _).trans hheld

end Ranges

theorem endToken_ofTokens (source : String) (tokens : List Token) :
    (TokenStream.ofTokens source tokens).endToken =
      ((tokens.filter (·.isDefault)).find? (·.isEof)).getD (Token.eof .start 0) := by
  simp [TokenStream.endToken, TokenStream.ofTokens, TokenStream.skipHidden, filter_drop_hiddenRun]

section Lexer
variable {pre cs : List Char} {index : Nat} {pieces : List Piece}

/-- Tokens of a text lie one behind the other, and behind what was read before. -/
theorem Cuts.inLine (h : Cuts pre index cs pieces) (hpre : ¬ Point.CutsBreak pre cs) :
    let tokens := Piece.tokensOf pieces ++
      [Token.eof (Point.start.advanceChars (pre ++ cs)) (index + (Piece.tokensOf pieces).length)]
    InLine tokens ∧ ∀ t ∈ tokens, index ≤ t.index ∧ Point.start.advanceChars pre ≤ t.start := by
  induction h with
  | done => simp [InLine, Token.eof, Point.le_refl]
  | @token pre text rest index rule pieces hwins hlength hmatches hcut h ih =>
    obtain ⟨hline, hbehind⟩ := ih hcut
    have hne := hmatches.ne_nil (shape_ne_word_nil rule (mem_lexicalRules_of_wins hwins))
    have htext : ¬ Point.CutsBreak pre text := by rwa [Point.cutsBreak_append_right hne] at hpre
    have hstop := Point.advanceChars_append Point.start htext
    have hstep := Point.advanceChars_le_append Point.start htext
    simp only [Piece.tokensOf_token, List.length_cons, List.cons_append, List.append_assoc,
      ← Nat.add_assoc, Nat.add_right_comm index 1] at hline hbehind ⊢
    refine ⟨List.pairwise_cons.mpr ⟨fun t ht => ?_, hline⟩, fun t ht => ?_⟩
    · obtain ⟨hindex, hplace⟩ := hbehind t ht
      refine ⟨hindex, ?_⟩
      simpa [Token.stop, Point.advance, ← hstop] using hplace
    · rcases List.mem_cons.mp ht with rfl | ht
      · exact ⟨Nat.le_refl _, Point.le_refl _⟩
      · obtain ⟨hindex, hplace⟩ := hbehind t ht
        exact ⟨Nat.le_of_succ_le hindex, Point.le_trans hstep hplace⟩
  | @skipped pre rest c index pieces hnone hcut h ih =>
    obtain ⟨hline, hbehind⟩ := ih hcut
    have hchar : ¬ Point.CutsBreak pre [c] := by
      rwa [← List.singleton_append, Point.cutsBreak_append_right (by simp)] at hpre
    have hstep := Point.advanceChars_le_append Point.start hchar
    simp only [Piece.tokensOf_skipped, List.append_assoc, List.singleton_append] at hline hbehind ⊢
    refine ⟨hline, fun t ht => ?_⟩
    obtain ⟨hindex, hplace⟩ := hbehind t ht
    exact ⟨hindex, Point.le_trans hstep hplace⟩

/-- The tokens that are parsed are the visible ones, and the end of the input closes them. -/
theorem stream_tokenize (input : String) :
    ∃ words : List Token, (∀ t ∈ words, ¬ t.isEof) ∧
      (tokenize input).1 = words ++ [Token.eof (Point.start.advance input) words.length] ∧
      (TokenStream.ofTokens input (tokenize input).1).pending = words.filter (·.isDefault) ∧
      (TokenStream.ofTokens input (tokenize input).1).endToken =
        Token.eof (Point.start.advance input) words.length := by
  obtain ⟨pieces, hcuts, htokens, -⟩ := exists_cuts_tokenize input
  have hwords : ∀ t ∈ (Piece.tokensOf pieces).filter (·.isDefault), ¬ t.isEof :=
    fun t ht => hcuts.not_isEof (List.mem_of_mem_filter ht)
  refine ⟨Piece.tokensOf pieces, fun t ht => hcuts.not_isEof ht, htokens, ?_, ?_⟩
  · rw [pending_ofTokens, htokens, List.filter_append, List.takeWhile_append_of_pos]
    · simp [Token.eof, Token.isDefault, Token.isEof]
    · simpa using hwords
  · rw [endToken_ofTokens, htokens, List.filter_append, List.find?_append,
      List.find?_eq_none.mpr hwords]
    simp [Token.eof, Token.isDefault, Token.isEof]

theorem inLine_tokenize (input : String) :
    let stream := TokenStream.ofTokens input (tokenize input).1
    InLine (stream.pending ++ [stream.endToken]) ∧
      ∀ t ∈ stream.pending ++ [stream.endToken], t.start.isValid := by
  obtain ⟨pieces, hcuts, htokens, -⟩ := exists_cuts_tokenize input
  obtain ⟨words, -, hwords, hpending, hend⟩ := stream_tokenize input
  obtain ⟨hline, hbehind⟩ := hcuts.inLine (Point.not_cutsBreak_nil _)
  have hall : (tokenize input).1 = Piece.tokensOf pieces ++
      [Token.eof (Point.start.advanceChars ([] ++ input.toList))
        (0 + (Piece.tokensOf pieces).length)] := by
    rw [htokens, Nat.zero_add]
    rfl
  rw [← hall, hwords] at hline hbehind
  have hvisible : (words.filter (·.isDefault) ++ [Token.eof (Point.start.advance input)
      words.length]).Sublist (words ++ [Token.eof (Point.start.advance input) words.length]) :=
    List.filter_sublist.append (List.Sublist.refl _)
  simp only [hpending, hend]
  refine ⟨hline.sublist hvisible, fun t ht => ?_⟩
  exact Point.isValid_of_le (hbehind t (hvisible.subset ht)).2 Point.isValid_start

end Lexer

end Script

end Arbor
