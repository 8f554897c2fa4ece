import Arbor.Proofs.Script.Names

/-!
What recovery leaves in a statement. Where a token does not fit, the tokens up to the next
statement go into the rule that is open, beside those that fitted. So each `set`, `display` or
`input` begins a statement of its own, whatever is behind it, and the tokens right under its rule
node are those up to the next statement, unless they began as the grammar wants them.
-/
namespace Arbor

def ParseTree.token? : ParseTree → Option Token
  | .token t => some t
  | _ => none

namespace Script

/-- The tokens among children. -/
def tokensIn (children : List ParseTree) : List Token := children.filterMap ParseTree.token?

/-- The tokens up to the next statement. -/
def reach (ts : List Token) : List Token := ts.takeWhile (!startsStatement ·)

/-- The keywords that begin statements, each with the tokens behind it. -/
def openings : List Token → List (Token × List Token)
  | [] => []
  | t :: ts => if startsStatement t then (t, ts) :: openings ts else openings ts

section Tokens
variable {t : Token} {ts : List Token} {kind : TokenKind}

theorem tokenOf?_eq (n : ParseNode) (kind : TokenKind) :
    n.tokenOf? kind = (tokensIn n.children).find? (·.kind = kind) := by
  rw [RuleNode.tokenOf?]
  induction n.children with
  | nil => rfl
  | cons c children ih =>
    cases c with
    | token t =>
      by_cases ht : t.kind = kind
      · simp [tokensIn, ParseTree.token?, ht]
      · simpa [tokensIn, ParseTree.token?, ht] using ih
    | error m => simpa [tokensIn, ParseTree.token?] using ih
    | node n => simpa [tokensIn, ParseTree.token?] using ih

theorem not_startsStatement_of_kind (h : kind ∉ [Script.set, display, input])
    (ht : t.kind = kind) : startsStatement t = false := by
  simp only [List.mem_cons, List.not_mem_nil, or_false, not_or] at h
  simp [startsStatement, ht, h]

theorem openings_cons_of_kind (h : kind ∉ [Script.set, display, input]) (ht : t.kind = kind) :
    openings (t :: ts) = openings ts := by
  rw [openings, not_startsStatement_of_kind h ht]
  rfl

theorem reach_cons_of_kind (h : kind ∉ [Script.set, display, input]) (ht : t.kind = kind) :
    reach (t :: ts) = t :: reach ts := by
  rw [reach, List.takeWhile_cons, not_startsStatement_of_kind h ht]
  rfl

theorem openings_dropWhile (ts : List Token) :
    openings (ts.dropWhile (!startsStatement ·)) = openings ts := by
  induction ts with
  | nil => rfl
  | cons t ts ih =>
    cases ht : startsStatement t with
    | true => simp [ht]
    | false => simpa [ht, openings] using ih

theorem startsStatement_of_mem_openings {o : Token × List Token} (h : o ∈ openings ts) :
    startsStatement o.1 := by
  induction ts with
  | nil => cases h
  | cons t ts ih =>
    rw [openings] at h
    split at h
    · next ht =>
      rcases List.mem_cons.mp h with rfl | h
      · exact ht
      · exact ih h
    · exact ih h

end Tokens

section Parts
variable (source : String) (last : Token) {first next : List Token → Match}

/-- A part of a rule that takes no keyword of a statement. -/
def Stays (next : List Token → Match) : Prop := ∀ ts, openings (next ts).rest = openings ts

theorem stays_mismatch (expected : String) : Stays (mismatch last expected) :=
  openings_dropWhile

theorem stays_expectAny (kinds : List TokenKind)
    (hkinds : ∀ k ∈ kinds, k ∉ [Script.set, display, input]) (expected : String) :
    Stays (expectAny last kinds expected) := by
  intro ts
  unfold expectAny
  split
  · rfl
  · next t rest =>
    split
    · next hk => exact (openings_cons_of_kind (hkinds t.kind hk) rfl).symm
    · exact stays_mismatch last expected (t :: rest)

theorem Stays.andThen (hf : Stays first) (hn : Stays next) :
    Stays fun ts => (first ts).andThen next := by
  intro ts
  by_cases hfit : (first ts).fits
  · simp only [Match.andThen, hfit, if_true]
    exact (hn _).trans (hf ts)
  · simp only [andThen_of_not_fits hfit]
    exact hf ts

theorem openings_cons_of_operand {t : Token} {rule : RuleKind} (h : operandRule? t = some rule)
    (ts : List Token) : openings (t :: ts) = openings ts := by
  have hoperand := isOperand_iff.mp (isSome_operandRule?_iff.mp (Option.isSome_of_mem h))
  rcases hoperand with hk | hk | hk | hk
  · exact openings_cons_of_kind (by decide) hk
  · exact openings_cons_of_kind (by decide) hk
  · exact openings_cons_of_kind (by decide) hk
  · exact openings_cons_of_kind (by decide) hk

theorem openings_sumFrom (left : ParseNode) (ts : List Token) :
    openings (sumFrom source last left ts).2.2 = openings ts := by
  have hplus : plus ∉ [Script.set, display, input] := by decide
  fun_induction sumFrom source last left ts with
  | case1 => rfl
  | case2 left t ht => exact (openings_cons_of_kind hplus ht).symm
  | case3 => rfl
  | case4 left t u rest ht rule hu ih =>
    rw [ih, openings_cons_of_kind hplus ht, openings_cons_of_operand hu]
  | case5 left t u rest ht hu =>
    rw [openings_cons_of_kind hplus ht]
    exact stays_mismatch last "expression" (u :: rest)
  | case6 => rfl

theorem stays_expectExpression : Stays (expectExpression source last) := by
  intro ts
  unfold expectExpression
  split
  · next n issues rest he =>
    obtain _ | ⟨t, ts⟩ := ts
    · simp [expression] at he
    obtain ⟨rule, hrule, he⟩ := Option.map_eq_some_iff.mp he
    have hsum := openings_sumFrom source last (operand source rule t) ts
    rw [he] at hsum
    rw [openings_cons_of_operand hrule]
    exact hsum
  · exact stays_mismatch last "expression" ts

/-- A statement takes its own keyword and no other one. -/
theorem openings_statement {t : Token} (ht : startsStatement t) (ts : List Token) :
    openings (statement source last (t :: ts)).2.2 = openings ts := by
  have hkinds : ∀ kinds ∈ partKinds, ∀ k ∈ kinds, k ∉ [Script.set, display, input] := by decide
  obtain ⟨rule, -, next, hnext, heq⟩ := exists_part_of_keyword source last
    (fun kinds hk => stays_expectAny last kinds (hkinds kinds hk))
    (stays_expectExpression source last) Stays.andThen ht
  rw [heq]
  exact hnext ts

/-- The statements of a text are those that its keywords begin. -/
theorem forall₂_statements {fuel : Nat} {ts : List Token} (hfuel : ts.length ≤ fuel) :
    List.Forall₂ (fun n o => n = (statement source last (o.1 :: o.2)).1)
      (nodesIn (statements source last fuel ts).1) (openings ts) := by
  induction fuel generalizing ts with
  | zero =>
    obtain rfl := List.length_eq_zero_iff.mp (Nat.le_zero.mp hfuel)
    exact .nil
  | succ fuel ih =>
    obtain _ | ⟨t, ts⟩ := ts
    · exact .nil
    rw [List.length_cons, Nat.add_le_add_iff_right] at hfuel
    by_cases ht : startsStatement t
    · have hshort := length_rest_statement_le source last ht ts
      have hrest := ih (hshort.trans hfuel)
      rw [openings_statement source last ht] at hrest
      simp only [statements, ht, if_true, openings]
      exact .cons rfl hrest
    · simp only [statements, ht, openings]
      exact ih hfuel

end Parts

/-- The first identifier up to the next statement. -/
def firstName? (ts : List Token) : Option Token := (reach ts).find? (·.kind = identifier)

/-- The type keyword of tokens that begin as an input declaration goes on. -/
def writtenType? : List Token → Option Token
  | x :: i :: y :: _ =>
      if x.kind = identifier ∧ i.kind = is ∧ y.kind ∈ typeKeywords then some y else none
  | _ => none

/-- The type keyword where the grammar wants it, or else the first `int` up to the next statement,
the first `dec` if there is no `int`, and the first `string` if there is neither. -/
def inputType? (ts : List Token) : Option Token :=
  (writtenType? ts).or (typeKeywords.findSome? fun kind => (reach ts).find? (·.kind = kind))

section Held
variable (source : String) (last : Token) {next : List Token → Match} {k : Token}

theorem tokensIn_mismatch (expected : String) (ts : List Token) :
    tokensIn (mismatch last expected ts).children = reach ts := by
  simp [tokensIn, mismatch, reach, ParseTree.token?, List.filterMap_cons, List.filterMap_map,
    Function.comp_def]

theorem andThen_assoc (m : Match) (f g : List Token → Match) :
    (m.andThen f).andThen g = m.andThen fun ts => (f ts).andThen g := by
  by_cases hm : m.fits
  · by_cases hf : (f m.rest).fits
    · simp [Match.andThen, hm, hf]
    · simp [Match.andThen, hm, hf]
  · simp [Match.andThen, hm]

/-- An expected token is taken, or everything up to the next statement is. -/
theorem expectAny_cases (kinds : List TokenKind) (expected : String) (ts : List Token) :
    (∃ t rest, ts = t :: rest ∧ t.kind ∈ kinds ∧
        expectAny last kinds expected ts = ⟨true, [.token t], [], rest⟩) ∨
      (∀ t ∈ ts.head?, t.kind ∉ kinds) ∧
        expectAny last kinds expected ts = mismatch last expected ts := by
  cases ts with
  | nil => exact .inr ⟨nofun, rfl⟩
  | cons t rest =>
    by_cases ht : t.kind ∈ kinds
    · exact .inl ⟨t, rest, rfl, ht, if_pos ht⟩
    · right
      constructor
      · rintro u hu
        obtain rfl := Option.some.inj hu
        exact ht
      · exact if_neg ht

theorem tokensIn_of_miss {kinds : List TokenKind} {expected : String} {ts : List Token}
    (h : expectAny last kinds expected ts = mismatch last expected ts) :
    tokensIn ((expectAny last kinds expected ts).andThen next).children = reach ts := by
  have hopen : ¬ (mismatch last expected ts).fits := Bool.false_ne_true
  rw [h, andThen_of_not_fits hopen, tokensIn_mismatch]

theorem tokensIn_of_fit {kinds : List TokenKind} {expected : String} {ts rest : List Token}
    {t : Token} (h : expectAny last kinds expected ts = ⟨true, [.token t], [], rest⟩) :
    tokensIn ((expectAny last kinds expected ts).andThen next).children =
      t :: tokensIn (next rest).children := by
  rw [h]
  rfl

theorem find?_name (ts : List Token) :
    (tokensIn ((expect last identifier ts).andThen next).children).find?
      (·.kind = identifier) = firstName? ts := by
  rcases expectAny_cases last [identifier] identifier.name ts with
    ⟨t, rest, rfl, ht, hfit⟩ | ⟨-, hmiss⟩
  · have hk : t.kind = identifier := List.mem_singleton.mp ht
    rw [expect, tokensIn_of_fit last hfit, firstName?, reach_cons_of_kind (by decide) hk]
    rw [List.find?_cons_of_pos (by simpa using hk), List.find?_cons_of_pos (by simpa using hk)]
  · rw [expect, tokensIn_of_miss last hmiss, firstName?]

/-- The variable of a set statement. -/
theorem tokenOf?_setStatement (hk : k.kind = Script.set) (ts : List Token) :
    (statement source last (k :: ts)).1.tokenOf? identifier = firstName? ts := by
  have hne : ¬ k.kind = identifier := by
    rw [hk]
    decide
  rw [statement_of_set source last hk, andThen_assoc, tokenOf?_eq]
  show (k :: tokensIn _).find? _ = _
  rw [List.find?_cons_of_neg (by simpa using hne)]
  exact find?_name last ts

/-- What follows the name in an input declaration. -/
def typePart (last : Token) (ts : List Token) : Match :=
  (expect last is ts).andThen (expectAny last typeKeywords "\x7bint, dec, string\x7d")

theorem statement_of_input_eq (hk : k.kind = input) (ts : List Token) :
    statement source last (k :: ts) = afterKeyword source Rule.inputDeclaration k
      ((expect last identifier ts).andThen (typePart last)) := by
  rw [statement_of_input source last hk, andThen_assoc]
  rfl

/-- The name of an input declaration. -/
theorem tokenOf?_inputDeclaration (hk : k.kind = input) (ts : List Token) :
    (statement source last (k :: ts)).1.tokenOf? identifier = firstName? ts := by
  have hne : ¬ k.kind = identifier := by
    rw [hk]
    decide
  rw [statement_of_input_eq source last hk, tokenOf?_eq]
  show (k :: tokensIn _).find? _ = _
  rw [List.find?_cons_of_neg (by simpa using hne)]
  exact find?_name last ts

theorem writtenType?_eq_none {ts : List Token} (h : ∀ x i y rest, ts = x :: i :: y :: rest →
    ¬ (x.kind = identifier ∧ i.kind = is ∧ y.kind ∈ typeKeywords)) : writtenType? ts = none := by
  unfold writtenType?
  split
  · exact if_neg (h _ _ _ _ rfl)
  · rfl

/-- What an input declaration holds behind its keyword: three tokens that fit, or all up to the next
statement. -/
theorem tokensIn_input_cases (ts : List Token) :
    (∃ x i y rest, ts = x :: i :: y :: rest ∧ x.kind = identifier ∧ i.kind = is ∧
        y.kind ∈ typeKeywords ∧
        tokensIn ((expect last identifier ts).andThen (typePart last)).children = [x, i, y]) ∨
      writtenType? ts = none ∧
        tokensIn ((expect last identifier ts).andThen (typePart last)).children = reach ts := by
  rcases expectAny_cases last [identifier] identifier.name ts with
    ⟨x, ts, rfl, hx, hfit⟩ | ⟨hother, hmiss⟩
  · have hname : x.kind = identifier := List.mem_singleton.mp hx
    rw [expect, tokensIn_of_fit last hfit, reach_cons_of_kind (by decide) hname, typePart, expect]
    rcases expectAny_cases last [is] is.name ts with ⟨i, ts, rfl, hi, hfit⟩ | ⟨hother, hmiss⟩
    · have his : i.kind = is := List.mem_singleton.mp hi
      rw [tokensIn_of_fit last hfit, reach_cons_of_kind (by decide) his]
      rcases expectAny_cases last typeKeywords "\x7bint, dec, string\x7d" ts with
        ⟨y, ts, rfl, hy, hfit⟩ | ⟨hother, hmiss⟩
      · left
        refine ⟨x, i, y, ts, rfl, hname, his, hy, ?_⟩
        rw [hfit]
        rfl
      · right
        rw [hmiss, tokensIn_mismatch]
        refine ⟨writtenType?_eq_none ?_, rfl⟩
        rintro x i y rest hts ⟨-, -, hy⟩
        obtain ⟨-, hts⟩ := List.cons.inj hts
        obtain ⟨-, rfl⟩ := List.cons.inj hts
        exact hother y rfl hy
    · right
      rw [tokensIn_of_miss last hmiss]
      refine ⟨writtenType?_eq_none ?_, rfl⟩
      rintro x i y rest hts ⟨-, his, -⟩
      obtain ⟨-, rfl⟩ := List.cons.inj hts
      exact hother i rfl (List.mem_singleton.mpr his)
  · right
    rw [expect, tokensIn_of_miss last hmiss]
    refine ⟨writtenType?_eq_none ?_, rfl⟩
    rintro x i y rest rfl ⟨hx, -, -⟩
    exact hother x rfl (List.mem_singleton.mpr hx)

theorem findSome?_typeKeywords {x i y : Token} (hx : x.kind = identifier) (hi : i.kind = is)
    (hy : y.kind ∈ typeKeywords) :
    (typeKeywords.findSome? fun kind => [x, i, y].find? (·.kind = kind)) = some y := by
  simp only [typeKeywords, List.mem_cons, List.not_mem_nil, or_false] at hy
  rcases hy with hy | hy | hy
  · simp [typeKeywords, hx, hi, hy, identifier, is, int]
  · simp [typeKeywords, hx, hi, hy, identifier, is, int, dec]
  · simp [typeKeywords, hx, hi, hy, identifier, is, int, dec, string]

/-- The type of an input declaration. -/
theorem findSome?_inputDeclaration (hk : k.kind = input) (ts : List Token) :
    typeKeywords.findSome? (statement source last (k :: ts)).1.tokenOf? = inputType? ts := by
  have hkeyword : ∀ kind ∈ typeKeywords, k.kind ≠ kind := by
    rw [hk]
    decide
  have hbehind : ∀ kind ∈ typeKeywords, (statement source last (k :: ts)).1.tokenOf? kind =
      (tokensIn ((expect last identifier ts).andThen (typePart last)).children).find?
        (·.kind = kind) := by
    intro kind hkind
    rw [statement_of_input_eq source last hk, tokenOf?_eq]
    show (k :: tokensIn _).find? _ = _
    rw [List.find?_cons_of_neg (by simpa using hkeyword kind hkind)]
  have hheld : typeKeywords.findSome? (statement source last (k :: ts)).1.tokenOf? =
      typeKeywords.findSome? fun kind =>
        (tokensIn ((expect last identifier ts).andThen (typePart last)).children).find?
          (·.kind = kind) := by
    simp only [typeKeywords, List.findSome?_cons, List.findSome?_nil, hbehind int (by decide),
      hbehind dec (by decide), hbehind string (by decide)]
  rw [hheld]
  rcases tokensIn_input_cases last ts with
    ⟨x, i, y, rest, rfl, hx, hi, hy, hexact⟩ | ⟨hnone, hall⟩
  · have hwritten : writtenType? (x :: i :: y :: rest) = some y := if_pos ⟨hx, hi, hy⟩
    rw [hexact, inputType?, hwritten, Option.some_or, findSome?_typeKeywords hx hi hy]
  · rw [hall, inputType?, hnone, Option.none_or]

end Held

section Below
variable (source : String) (last : Token) {first next : List Token → Match}

/-- A rule node in which there are expressions only. -/
def Sums (n : ParseNode) : Prop := ∀ c ∈ n.preorder, c.rule ∈ expressionRules

theorem Sums.of_mem {n c : ParseNode} (h : Sums n) (hc : c ∈ n.childNodes) : Sums c := by
  intro d hd
  apply h d
  rw [RuleNode.preorder_eq]
  exact List.mem_cons_of_mem n (List.mem_flatMap.mpr ⟨c, hc, hd⟩)

theorem sums_ruleNode {rule : RuleKind} {t : Token} {children : List ParseTree}
    (hrule : rule ∈ expressionRules) (hchildren : ∀ c ∈ nodesIn children, Sums c) :
    Sums (ruleNode source rule t children) := by
  intro c hc
  rw [preorder_ruleNode] at hc
  rcases List.mem_cons.mp hc with rfl | hc
  · exact hrule
  · obtain ⟨n, hn, hcn⟩ := List.mem_flatMap.mp hc
    exact hchildren n hn c hcn

theorem sums_operand {t : Token} {rule : RuleKind} (h : operandRule? t = some rule) :
    Sums (operand source rule t) :=
  sums_ruleNode source (operandRule?_mem h) (by simp [nodesIn, ParseTree.node?])

theorem sums_sum {left : ParseNode} {children : List ParseTree} (hleft : Sums left)
    (hchildren : ∀ c ∈ nodesIn children, Sums c) : Sums (sum source left children) := by
  apply sums_ruleNode source (by decide)
  intro c hc
  rcases List.mem_cons.mp hc with rfl | hc
  · exact hleft
  · exact hchildren c hc

theorem sums_sumFrom {left : ParseNode} (hleft : Sums left) (ts : List Token) :
    Sums (sumFrom source last left ts).1 := by
  have hmiss : ∀ t us, ∀ c ∈ nodesIn (.token t :: (mismatch last "expression" us).children),
      Sums c := by
    intro t us c hc
    have hc : c ∈ nodesIn (mismatch last "expression" us).children := hc
    rw [nodesIn_mismatch] at hc
    cases hc
  fun_induction sumFrom source last left ts with
  | case1 => exact hleft
  | case2 left t => exact sums_sum source hleft (hmiss t [])
  | case3 => exact hleft
  | case4 left t u rest _ rule hu ih =>
    apply ih
    apply sums_sum source hleft
    intro c hc
    obtain rfl : operand source rule u = c := by simpa [nodesIn, ParseTree.node?] using hc
    exact sums_operand source hu
  | case5 left t u rest => exact sums_sum source hleft (hmiss t (u :: rest))
  | case6 => exact hleft

/-- A part of a rule with no other rule nodes than expressions. -/
def Yields (next : List Token → Match) : Prop := ∀ ts, ∀ c ∈ nodesIn (next ts).children, Sums c

theorem yields_expectAny (kinds : List TokenKind) (expected : String) :
    Yields (expectAny last kinds expected) := by
  intro ts c hc
  rw [nodesIn_expectAny] at hc
  cases hc

theorem Yields.andThen (hf : Yields first) (hn : Yields next) :
    Yields fun ts => (first ts).andThen next := by
  intro ts c hc
  rcases mem_nodesIn_andThen hc with hc | hc
  · exact hf ts c hc
  · exact hn _ c hc

theorem yields_expectExpression : Yields (expectExpression source last) := by
  intro ts c hc
  obtain ⟨t, rest, rule, rfl, hrule, rfl⟩ := mem_nodesIn_expectExpression source last ts hc
  exact sums_sumFrom source last (sums_operand source hrule) rest

/-- Under a statement there are expressions only. -/
theorem sums_of_mem_statement {t : Token} (ht : startsStatement t) (ts : List Token) :
    ∀ c ∈ (statement source last (t :: ts)).1.childNodes, Sums c := by
  obtain ⟨rule, -, next, hnext, heq⟩ := exists_part_of_keyword source last
    (fun kinds _ => yields_expectAny last kinds) (yields_expectExpression source last)
    Yields.andThen ht
  rw [heq]
  exact hnext ts

end Below

end Script

end Arbor
