import Arbor.Proofs.Script.Recovery
import Arbor.Proofs.Script.Verdict
import Arbor.Proofs.Script.Views

/-!
The statements of any text, malformed ones included. For each keyword that begins a statement there
is one node, in the order of the text. A variable, a name or a type on it is a token of the right
kind between its keyword and the next one, though not always the token right behind: where the
statement breaks off, the first such token is taken. Where there is none, the node is an error node.
No other node is a declaration.
-/
namespace Arbor.Script
open Transformer Mapping

/-- What the node `id` tells of the statement that the keyword `k` begins, with `ts` behind it. -/
inductive Tells (f : Forest) (id : NodeId) (k : Token) (ts : List Token) : Prop
  | set {x : Token} (keyword : k.kind = Script.set) (name : firstName? ts = some x)
      (kind : f.isKind id Kinds.setStatement)
      (target : f.property id "variable" = .ok (some (.string x.text)))
  | unnamedSet (keyword : k.kind = Script.set) (name : firstName? ts = none)
      (kind : f.isKind id .errorNode)
  | display (keyword : k.kind = Script.display) (kind : f.isKind id Kinds.displayStatement)
  | input {x y : Token} (keyword : k.kind = Script.input) (name : firstName? ts = some x)
      (type : inputType? ts = some y) (kind : f.isKind id Kinds.inputDeclaration)
      (target : f.property id "name" = .ok (some (.string x.text)))
      (content : f.property id "type" = .ok (some (.string y.text)))
  | brokenInput (keyword : k.kind = Script.input)
      (missing : firstName? ts = none ∨ inputType? ts = none) (kind : f.isKind id .errorNode)

section Statements
variable {f : Forest} {parent : Option Nat} {id : NodeId} {n : ParseNode} {m : Node} {j : Kind}
  {source : String} {last k : Token}

theorem Tells.isKind_setStatement {ts : List Token} {x : Token} (h : Tells f id k ts)
    (hk : k.kind = Script.set) (hname : firstName? ts = some x) :
    f.isKind id Kinds.setStatement := by
  have hdisplay : k.kind ≠ Script.display := by
    rw [hk]
    decide
  have hinput : k.kind ≠ Script.input := by
    rw [hk]
    decide
  cases h with
  | set _ _ kind => exact kind
  | unnamedSet _ name => exact absurd (name.symm.trans hname) (by simp)
  | display keyword => exact absurd keyword hdisplay
  | input keyword => exact absurd keyword hinput
  | brokenInput keyword => exact absurd keyword hinput

theorem isKind_self (hnode : f.node? id = some m) (hd : m.descriptor.Describes j)
    (hj : j ∈ leafKinds) : f.isKind id j := by
  rw [isKind_of_describes hnode hd (leafKinds_cases j hj).1 hj]
  exact decide_eq_true rfl

theorem tells_of_set (hk : k.kind = Script.set) (ts : List Token)
    (h : f.Mirrors (lenient.Depicts Serves) parent id (statement source last (k :: ts)).1) :
    Tells f id k ts := by
  have hrule : (statement source last (k :: ts)).1.rule = Rule.setStatement := by
    rw [statement_of_set source last hk]
    rfl
  have htoken := tokenOf?_setStatement source last hk ts
  obtain ⟨hnode, hm, -, -⟩ := h
  cases hname : firstName? ts with
  | some x =>
    obtain ⟨hd, hdata⟩ := portrait_setStatement hm.look hrule (htoken.trans hname)
    apply Tells.set hk hname (isKind_self hnode hd (by decide))
    exact property_of_data (i := 0) (p := .attr "variable" "string") hnode hm
      (by rw [hd.properties]; rfl) rfl (by rw [hdata]; rfl)
  | none =>
    have hd := depicts_of_fails hm.look (by rw [hrule]; rfl) rfl fun _ =>
      fails_setStatement (htoken.trans hname)
    exact .unnamedSet hk hname (isKind_self hnode hd (by decide))

theorem tells_of_display (hk : k.kind = display) (ts : List Token)
    (h : f.Mirrors (lenient.Depicts Serves) parent id (statement source last (k :: ts)).1) :
    Tells f id k ts := by
  have hrule : (statement source last (k :: ts)).1.rule = Rule.displayStatement := by
    rw [statement_of_display source last hk]
    rfl
  obtain ⟨hnode, hm, -, -⟩ := h
  have hd := (portrait_displayStatement hm.look hrule).1
  exact .display hk (isKind_self hnode hd (by decide))

theorem tells_of_input (hk : k.kind = input) (ts : List Token)
    (h : f.Mirrors (lenient.Depicts Serves) parent id (statement source last (k :: ts)).1) :
    Tells f id k ts := by
  have hrule : (statement source last (k :: ts)).1.rule = Rule.inputDeclaration := by
    rw [statement_of_input source last hk]
    rfl
  have htoken := tokenOf?_inputDeclaration source last hk ts
  have htypes := findSome?_inputDeclaration source last hk ts
  obtain ⟨hnode, hm, -, -⟩ := h
  have hbroken : firstName? ts = none ∨ inputType? ts = none → Tells f id k ts := by
    intro hmissing
    have hd := depicts_of_fails hm.look (by rw [hrule]; rfl) rfl fun _ =>
      fails_inputDeclaration (hmissing.imp htoken.trans htypes.trans)
    exact .brokenInput hk hmissing (isKind_self hnode hd (by decide))
  cases hname : firstName? ts with
  | none => exact hbroken (.inl hname)
  | some x =>
    cases htype : inputType? ts with
    | none => exact hbroken (.inr htype)
    | some y =>
      obtain ⟨hd, hdata⟩ := portrait_inputDeclaration hm.look hrule (htoken.trans hname)
        (htypes.trans htype)
      apply Tells.input hk hname htype (isKind_self hnode hd (by decide))
      · exact property_of_data (i := 0) (p := .attr "name" "string") hnode hm
          (by rw [hd.properties]; rfl) rfl (by rw [hdata]; rfl)
      · exact property_of_data (i := 1) (p := .attr "type" "string") hnode hm
          (by rw [hd.properties]; rfl) rfl (by rw [hdata]; rfl)

theorem tells_of_mirrors (hk : startsStatement k) (ts : List Token)
    (h : f.Mirrors (lenient.Depicts Serves) parent id (statement source last (k :: ts)).1) :
    Tells f id k ts := by
  rcases startsStatement_iff.mp hk with hk | hk | hk
  · exact tells_of_set hk ts h
  · exact tells_of_display hk ts h
  · exact tells_of_input hk ts h

theorem forall₂_tells {start : Nat} {ns : List ParseNode} {os : List (Token × List Token)}
    (h : f.MirrorsAll (lenient.Depicts Serves) parent start ns)
    (hns : List.Forall₂ (fun n o => n = (statement source last (o.1 :: o.2)).1) ns os)
    (hos : ∀ o ∈ os, startsStatement o.1) :
    List.Forall₂ (fun id o => Tells f id o.1 o.2) (Forest.placesFrom start ns) os := by
  induction hns generalizing start with
  | nil => exact .nil
  | @cons n o ns os hn _ ih =>
    obtain ⟨hfirst, hrest⟩ := Forest.mirrorsAll_cons.mp h
    obtain ⟨ho, hos⟩ := List.forall_mem_cons.mp hos
    subst hn
    exact .cons (tells_of_mirrors ho o.2 hfirst) (ih hrest hos)

/-- A node that declares nothing and sets nothing. -/
def Silent (f : Forest) (id : NodeId) : Prop :=
  f.isKind id Kinds.setStatement = false ∧ f.isKind id Kinds.inputDeclaration = false

theorem silent_of_describes (hnode : f.node? id = some m) (hd : m.descriptor.Describes j)
    (hj : j ∈ nodeKinds) (hset : j ≠ Kinds.setStatement) (hinput : j ≠ Kinds.inputDeclaration) :
    Silent f id := by
  constructor
  · rw [isKind_of_describes hnode hd hj (by decide)]
    exact decide_eq_false hset
  · rw [isKind_of_describes hnode hd hj (by decide)]
    exact decide_eq_false hinput

theorem silent_of_plain (h : f.Mirrors (lenient.Depicts Serves) parent id n)
    (hrule : n.rule ∈ Rule.compilationUnit :: expressionRules) : Silent f id := by
  obtain ⟨hnode, hm, -, -⟩ := h
  by_cases href : n.rule = Rule.valueReference
  · have hd := (portrait_valueReference hm.look href).1
    exact silent_of_describes hnode hd (by decide) (by decide) (by decide)
  · have hplain : n.rule ∈ [Rule.compilationUnit, Rule.displayStatement, Rule.sumExpression,
        Rule.intLiteral, Rule.decLiteral, Rule.stringLiteral] := by
      simp only [expressionRules, List.mem_cons, List.not_mem_nil, or_false, href] at hrule ⊢
      tauto
    obtain ⟨k, hk, hother, hd⟩ := exists_describes_of_plain hm.look hplain
    simp only [List.mem_cons, List.not_mem_nil, or_false, not_or] at hother
    exact silent_of_describes hnode hd hk hother.2.1 hother.2.2

end Statements

section Texts
variable {input : String} {timed : Bool} {start : Nat} {result : ParsingResult}
  {mapped final : Forest}

/-- The nodes of the statements of a text, where its tree begins at cell `start`. -/
def statementNodes (input : String) (start : Nat) : List NodeId :=
  Forest.placesFrom (start + 1) (treeOf input).childNodes

theorem forall₂_treeOf (input : String) :
    List.Forall₂ (fun n o => n = (statement input (streamOf input).endToken (o.1 :: o.2)).1)
      (treeOf input).childNodes (openings (visible input)) := by
  rw [← pending_streamOf]
  have hstatements := forall₂_statements input (streamOf input).endToken
    (Nat.le_refl (streamOf input).pending.length)
  have hnodes : (treeOf input).childNodes = nodesIn (statements input (streamOf input).endToken
      (streamOf input).pending.length (streamOf input).pending).1 := by
    simp [treeOf, compilationUnit, childNodes_ruleNode, nodesIn, ParseTree.node?]
  rw [hnodes]
  exact hstatements

theorem Parses.tells (h : Parses input timed start result mapped final) :
    List.Forall₂ (fun id o => Tells final id o.1 o.2) (statementNodes input start)
      (openings (visible input)) := by
  obtain ⟨-, -, -, hbelow⟩ := h.mirrors_final
  exact forall₂_tells hbelow (forall₂_treeOf input) fun o => startsStatement_of_mem_openings

theorem Parses.childrenOf_root (h : Parses input timed start result mapped final) :
    final.childrenOf start "statements" = .ok (statementNodes input start) := by
  obtain ⟨hnode, hm, hnodes, -⟩ := h.mirrors_final
  next m =>
  have hd := (portrait_compilationUnit hm.look (rule_treeOf input)).1
  have hread := Forest.childrenOf_of_slot (i := 0) (p := .children "statements" "simple.Statement")
    hnode hm (by rw [hd.properties]; rfl) rfl rfl
  rw [Node.children_of_one hd.properties rfl hm.typed] at hnodes
  rwa [hnodes] at hread

theorem Parses.mem_walk (h : Parses input timed start result mapped final) {id : NodeId}
    (hid : id ∈ statementNodes input start) : id ∈ final.walk start := by
  obtain ⟨n, hn⟩ := Forest.mem_placesFrom_iff.mp hid
  have hb := Forest.bounds_of_mem_zip hn
  have hcount := n.nodeCount_eq
  have htotal := (treeOf input).nodeCount_eq
  rw [h.mirrors_final.walk_eq h.size_final, List.mem_range'_1]
  omega

theorem forall_sums_treeOf (input : String) :
    ∀ n ∈ (treeOf input).childNodes, ∀ c ∈ n.childNodes, Sums c := by
  intro n hn
  obtain ⟨o, ho, rfl⟩ := exists_of_forall₂ (forall₂_treeOf input) hn
  exact sums_of_mem_statement input _ (startsStatement_of_mem_openings ho) o.2

/-- Every node but those of the statements is silent. -/
theorem Parses.silent_or_mem (h : Parses input timed start result mapped final) :
    ∀ id ∈ final.walk start, Silent final id ∨ id ∈ statementNodes input start := by
  have hall := h.mirrors_final.forall₂_range'
    (P := fun _ id n => n = treeOf input ∧ id = start ∨
      (id ∈ statementNodes input start ∧ n ∈ (treeOf input).childNodes) ∨ Sums n)
    (.inl ⟨rfl, rfl⟩) (by
      rintro parent id n - hplace c place hc
      have hchild : c ∈ n.childNodes := (List.of_mem_zip hc).1
      right
      rcases hplace with ⟨rfl, rfl⟩ | ⟨-, hn⟩ | hsums
      · exact .inl ⟨(List.of_mem_zip hc).2, hchild⟩
      · exact .inr (forall_sums_treeOf input n hn c hchild)
      · exact .inr (hsums.of_mem hchild))
  intro id hid
  rw [h.mirrors_final.walk_eq h.size_final] at hid
  obtain ⟨n, -, parent, hmirrors, hplace⟩ := exists_of_forall₂ hall hid
  rcases hplace with ⟨rfl, rfl⟩ | ⟨hmem, -⟩ | hsums
  · exact .inl (silent_of_plain hmirrors (List.mem_cons.mpr (.inl (rule_treeOf input))))
  · exact .inr hmem
  · have hself : n ∈ n.preorder := by
      rw [RuleNode.preorder_eq]
      exact List.mem_cons_self
    exact .inl (silent_of_plain hmirrors (List.mem_cons_of_mem _ (hsums n hself)))

/-- Parsing any text with a new registry comes to an end. Each keyword that begins a statement has
one node, and the node tells of the tokens up to the next statement. There are no other declarations
and no other set statements. -/
theorem parse_tells_statements (input : String) (policy : ConflictPolicy) (f : Forest) :
    ∃ result root ids w', (language {}).parse input { world := ⟨.empty policy, f⟩ } =
        (.ok result, w') ∧
      result.root = some root ∧
      w'.world.forest.childrenOf root "statements" = .ok ids ∧
      List.Forall₂ (fun id o => Tells w'.world.forest id o.1 o.2) ids (openings (visible input)) ∧
      ∀ id ∈ w'.world.forest.walk root, w'.world.forest.isKind id Kinds.setStatement ∨
        w'.world.forest.isKind id Kinds.inputDeclaration → id ∈ ids := by
  obtain ⟨result, w', mapped, hparse, h⟩ := exists_parses input policy f
  refine ⟨result, f.size, statementNodes input f.size, w', hparse, h.root, h.childrenOf_root,
    h.tells, ?_⟩
  intro id hid hdeclares
  rcases h.silent_or_mem id hid with ⟨hset, hinput⟩ | hmem
  · rw [hset, hinput] at hdeclares
    simp at hdeclares
  · exact hmem

end Texts

section Sample
variable {k e x : Token}

/-- Behind `set =` the first identifier still counts. -/
theorem openings_set_equal (hk : k.kind = Script.set) (he : e.kind = equal)
    (hx : x.kind = identifier) :
    openings [k, e, x] = [(k, [e, x])] ∧ firstName? [e, x] = some x := by
  have hstarts : startsStatement k := startsStatement_iff.mpr (.inl hk)
  constructor
  · rw [openings, if_pos hstarts, openings_cons_of_kind (by decide) he,
      openings_cons_of_kind (by decide) hx]
    rfl
  · rw [firstName?, reach_cons_of_kind (by decide) he, reach_cons_of_kind (by decide) hx]
    rw [List.find?_cons_of_neg (by rw [he]; decide), List.find?_cons_of_pos (by simpa using hx)]

theorem not_set_next_to_name (he : e.kind = equal) {before after : List Token} {k' x' : Token}
    (hsplit : [k, e, x] = before ++ k' :: x' :: after) (hk' : k'.kind = Script.set) :
    x'.kind ≠ identifier := by
  intro hx'
  obtain _ | ⟨b, before⟩ := before
  · obtain ⟨-, rfl, -⟩ : k = k' ∧ e = x' ∧ [x] = after := by simpa using hsplit
    exact absurd (he.symm.trans hx') (by decide)
  · obtain _ | ⟨c, before⟩ := before
    · obtain ⟨-, rfl, -⟩ : k = b ∧ e = k' ∧ [x] = x' :: after := by simpa using hsplit
      exact absurd (he.symm.trans hk') (by decide)
    · have hlength := congrArg List.length hsplit
      simp only [List.length_cons, List.length_append, List.length_nil] at hlength
      omega

/-- A set statement that breaks off need not name what is right behind its keyword: the tree for
`set = x` sets `x`. -/
theorem parse_names_past_mismatch :
    ¬ ∀ input policy f result root w',
      (language {}).parse input { world := ⟨.empty policy, f⟩ } = (.ok result, w') →
      result.root = some root →
      (∀ id ∈ w'.world.forest.walk root, w'.world.forest.isKind id Kinds.setStatement →
        ∃ before k x after, visible input = before ++ k :: x :: after ∧ k.kind = Script.set ∧
          x.kind = identifier ∧
          w'.world.forest.property id "variable" = .ok (some (.string x.text))) ∧
      ∀ id ∈ w'.world.forest.walk root, w'.world.forest.isKind id Kinds.inputDeclaration →
        ∃ before k x i y after, visible input = before ++ k :: x :: i :: y :: after ∧
          k.kind = Script.input ∧ x.kind = identifier ∧ i.kind = is ∧ y.kind ∈ typeKeywords ∧
          w'.world.forest.property id "name" = .ok (some (.string x.text)) ∧
          w'.world.forest.property id "type" = .ok (some (.string y.text)) := by
  intro hall
  obtain ⟨result, w', mapped, hparse, h⟩ := exists_parses "set = x" .fail {}
  have hkinds : (visible "set = x").map (·.kind) = [Script.set, equal, identifier] := by decide
  obtain ⟨k, e, x, hvisible⟩ : ∃ k e x, visible "set = x" = [k, e, x] :=
    List.length_eq_three.mp (by simpa using congrArg List.length hkinds)
  rw [hvisible] at hkinds
  obtain ⟨hk, he, hx⟩ : k.kind = Script.set ∧ e.kind = equal ∧ x.kind = identifier := by
    simpa using hkinds
  obtain ⟨hopenings, hname⟩ := openings_set_equal hk he hx
  have htells := h.tells
  rw [hvisible, hopenings] at htells
  obtain ⟨id, ids, htold, -, hids⟩ := List.forall₂_cons_right_iff.mp htells
  have hid : id ∈ w'.world.forest.walk _ := h.mem_walk (hids ▸ List.mem_cons_self)
  have hkind := htold.isKind_setStatement hk hname
  obtain ⟨hset, -⟩ := hall _ _ _ _ _ _ hparse h.root
  obtain ⟨before, k', x', after, hsplit, hk', hx', -⟩ := hset id hid hkind
  exact not_set_next_to_name he (hvisible.symm.trans hsplit) hk' hx'

end Sample

end Arbor.Script
