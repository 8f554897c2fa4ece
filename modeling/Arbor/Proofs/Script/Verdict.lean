import Arbor.Proofs.Script.Coverage
import Arbor.Proofs.Script.Names

/-!
When a result counts as correct. Everything that lexing, parsing and linking report is an error, so
a result is correct only where none of them reports anything. Lexing is silent if every character
belongs to a token, parsing if the tokens derive from the grammar, and linking, on the tree of a
program, if every name that is used is declared.
-/
namespace Arbor.Script
open Transformer Mapping

section Severity

/-- Issues of which each one stands against a result. -/
def AllBlocking (issues : List Issue) : Prop := ∀ i ∈ issues, i.isBlocking

variable {issues more : List Issue}

theorem allBlocking_nil : AllBlocking [] := by simp [AllBlocking]

theorem allBlocking_append (h : AllBlocking issues) (h' : AllBlocking more) :
    AllBlocking (issues ++ more) := by
  intro i hi
  rcases List.mem_append.mp hi with hi | hi
  · exact h i hi
  · exact h' i hi

theorem allBlocking_singleton {i : Issue} (h : i.isBlocking) : AllBlocking [i] := by
  simpa [AllBlocking] using h

theorem noneBlocking_iff (h : AllBlocking issues) : Issue.noneBlocking issues ↔ issues = [] := by
  cases issues with
  | nil => simp [Issue.noneBlocking]
  | cons i rest => simp [Issue.noneBlocking, h i (by simp)]

variable (source : String) (last : Token)

/-- A part of a rule that reports nothing but errors. -/
def Strict (next : List Token → Match) : Prop := ∀ ts, AllBlocking (next ts).issues

theorem strict_mismatch (expected : String) : Strict (mismatch last expected) :=
  fun _ => allBlocking_singleton rfl

theorem strict_expectAny (kinds : List TokenKind) (expected : String) :
    Strict (expectAny last kinds expected) := by
  intro ts
  unfold expectAny
  split
  · exact strict_mismatch last expected []
  · split
    · exact allBlocking_nil
    · exact strict_mismatch last expected _

theorem Strict.andThen {first next : List Token → Match} (hf : Strict first) (hn : Strict next) :
    Strict fun ts => (first ts).andThen next := by
  intro ts
  by_cases hfit : (first ts).fits
  · simp only [Match.andThen, hfit, if_true]
    exact allBlocking_append (hf ts) (hn _)
  · simp only [andThen_of_not_fits hfit]
    exact hf ts

theorem allBlocking_sumFrom (left : ParseNode) (ts : List Token) :
    AllBlocking (sumFrom source last left ts).2.1 := by
  fun_induction sumFrom source last left ts with
  | case1 => exact allBlocking_nil
  | case2 => exact strict_mismatch last "expression" []
  | case3 => exact allBlocking_nil
  | case4 _ _ _ _ _ _ _ ih => exact ih
  | case5 _ _ u rest => exact strict_mismatch last "expression" (u :: rest)
  | case6 => exact allBlocking_nil

theorem strict_expectExpression : Strict (expectExpression source last) := by
  intro ts
  unfold expectExpression
  split
  · next n issues rest he =>
    obtain _ | ⟨t, ts⟩ := ts
    · simp [expression] at he
    obtain ⟨rule, hrule, he⟩ := Option.map_eq_some_iff.mp he
    have hsum := allBlocking_sumFrom source last (operand source rule t) ts
    rwa [he] at hsum
  · exact strict_mismatch last "expression" ts

theorem allBlocking_statement {t : Token} (ht : startsStatement t) (ts : List Token) :
    AllBlocking (statement source last (t :: ts)).2.1 := by
  obtain ⟨rule, -, next, hnext, heq⟩ := exists_part_of_keyword source last
    (fun kinds _ => strict_expectAny last kinds) (strict_expectExpression source last)
    Strict.andThen ht
  rw [heq]
  exact hnext ts

theorem allBlocking_statements (fuel : Nat) (ts : List Token) :
    AllBlocking (statements source last fuel ts).2.1 := by
  induction fuel generalizing ts with
  | zero => cases ts <;> exact allBlocking_nil
  | succ fuel ih =>
    obtain _ | ⟨t, ts⟩ := ts
    · exact allBlocking_nil
    by_cases ht : startsStatement t
    · simp only [statements, ht, if_true]
      exact allBlocking_append (allBlocking_statement source last ht ts) (ih _)
    · simp only [statements, ht]
      exact allBlocking_append (allBlocking_singleton rfl) (ih ts)

theorem allBlocking_tokenize (input : String) : AllBlocking (tokenize input).2 := by
  obtain ⟨pieces, -, -, hissues⟩ := exists_cuts_tokenize input
  intro i hi
  rw [hissues] at hi
  obtain ⟨p, -, hp⟩ := List.mem_filterMap.mp hi
  cases p with
  | token t => simp [Piece.issue?] at hp
  | skipped c place =>
    obtain rfl := Option.some.inj hp
    rfl

theorem allBlocking_earlyIssues (input : String) : AllBlocking (earlyIssues input) := by
  have hparse : AllBlocking (parseRule "compilationUnit" (streamOf input)).issues := by
    simp only [parseRule, if_true]
    exact allBlocking_statements _ _ _ _
  have hunconsumed : ∀ s, AllBlocking (Language.unconsumed s) := by
    intro s
    unfold Language.unconsumed
    split
    · exact allBlocking_nil
    · exact allBlocking_singleton rfl
  have hmarkers : ∀ root, AllBlocking (Language.markerIssues root) := by
    intro root i hi
    obtain ⟨m, -, rfl⟩ := List.mem_map.mp hi
    rfl
  exact allBlocking_append (allBlocking_append (allBlocking_append (allBlocking_tokenize input)
    hparse) (hunconsumed _)) (hmarkers _)

theorem allBlocking_unresolved (f : Forest) (declared : Table String NodeId)
    (nodes : List NodeId) : AllBlocking (nodes.filterMap (unresolved f declared)) := by
  intro i hi
  obtain ⟨id, -, hid⟩ := List.mem_filterMap.mp hi
  obtain ⟨message, place, rfl⟩ := eq_semantic_of_unresolved hid
  rfl

end Severity

section Stages
variable {input : String}

/-- Of a text, the parts that are not in tokens are as long as there are issues. -/
theorem length_joined (pieces : List Piece) :
    (Piece.joined pieces).toList.length =
      (String.join ((Piece.tokensOf pieces).map (·.text))).toList.length +
        (Piece.issuesOf pieces).length := by
  induction pieces with
  | nil => rfl
  | cons p pieces ih =>
    rw [Piece.toList_joined_cons, List.length_append, ih]
    cases p with
    | token t => simp [Piece.text, Nat.add_assoc]
    | skipped c place => simp [Piece.text]; omega

theorem joined_of_issuesOf_eq_nil {pieces : List Piece} (h : Piece.issuesOf pieces = []) :
    Piece.joined pieces = String.join ((Piece.tokensOf pieces).map (·.text)) := by
  induction pieces with
  | nil => rfl
  | cons p pieces ih =>
    cases p with
    | token t =>
      have hrest := ih h
      rw [← String.toList_inj] at hrest ⊢
      simp [hrest, Piece.text]
    | skipped c place => simp at h

/-- Lexing reports nothing if every character belongs to a token. -/
theorem issues_tokenize_eq_nil_iff (input : String) :
    (tokenize input).2 = [] ↔ String.join ((tokenize input).1.map (·.text)) = input := by
  obtain ⟨pieces, hcuts, htokens, hissues⟩ := exists_cuts_tokenize input
  have hjoin : String.join ((tokenize input).1.map (·.text)) =
      String.join ((Piece.tokensOf pieces).map (·.text)) := by
    rw [← String.toList_inj, htokens]
    simp [Token.eof]
  rw [hissues, hjoin]
  constructor
  · intro h
    rw [← joined_of_issuesOf_eq_nil h, joined_eq hcuts]
  · intro h
    have hlength := length_joined pieces
    rw [h, joined_eq hcuts] at hlength
    exact List.length_eq_zero_iff.mp (by omega)

theorem treeOf_of_programTrees {ns : List ParseNode}
    (h : ProgramTrees input (streamOf input).pending ns) :
    treeOf input = programTree input (streamOf input).endToken (streamOf input).pending ns := by
  rw [treeOf, h.compilationUnit_eq]

theorem issues_parseRule_eq_nil_iff (input : String) :
    (parseRule "compilationUnit" (streamOf input)).issues = [] ↔
      IsProgram (kindsOf (streamOf input).pending) := by
  simp only [parseRule, if_true, compilationUnit]
  exact issues_statements_eq_nil_iff _ _ (Nat.le_refl _)

theorem unconsumed_parseRule (input : String) :
    Language.unconsumed (parseRule "compilationUnit" (streamOf input)).tokens = [] := by
  have hend : (parseRule "compilationUnit" (streamOf input)).tokens.atEof :=
    atEof_parseRule (onDefault_skipHidden _)
  rw [Language.unconsumed, if_pos hend]

theorem earlyIssues_eq_nil_iff (input : String) :
    earlyIssues input = [] ↔ String.join ((tokenize input).1.map (·.text)) = input ∧
      IsProgram (kindsOf (streamOf input).pending) := by
  have hmarkers : IsProgram (kindsOf (streamOf input).pending) →
      Language.markerIssues (some (treeOf input)) = [] := by
    intro hprogram
    obtain ⟨ns, hns⟩ := exists_programTrees input hprogram
    rw [treeOf_of_programTrees hns, Language.markerIssues, Option.map_some, Option.getD_some,
      hns.errorMarkers_eq_nil, List.map_nil]
  simp only [earlyIssues, unconsumed_parseRule, root_parseRule, List.append_eq_nil_iff,
    issues_parseRule_eq_nil_iff, issues_tokenize_eq_nil_iff, and_true]
  exact ⟨fun h => h.1, fun h => ⟨h, hmarkers h.2⟩⟩

end Stages

section Linking
variable {f : Forest} {start : Nat} {input : String} {ns : List ParseNode}

theorem exists_iff_of_forall₂ {look : NodeId → Option String} {read : ParseNode → Option String}
    {ids : List NodeId} {cs : List ParseNode}
    (h : List.Forall₂ (fun id c => look id = read c) ids cs) (x : String) :
    (∃ id ∈ ids, look id = some x) ↔ ∃ c ∈ cs, read c = some x := by
  induction h with
  | nil => simp
  | cons hfirst _ ih => simp [hfirst, ih]

theorem covers_pending : ∀ t ∈ (streamOf input).pending, Covers input t := by
  intro t ht
  obtain ⟨words, -, htokens, hpending, -⟩ := stream_tokenize input
  rw [streamOf, hpending] at ht
  refine textOf_token ?_
  rw [htokens]
  exact List.mem_append_left _ (List.mem_of_mem_filter ht)

/-- The nodes of a tree tell the names that its rule nodes tell. -/
theorem forall₂_names {root : ParseNode} (h : f.Mirrors (lenient.Depicts Serves) none start root)
    (hsize : start + root.nodeCount ≤ f.size) (hregular : ∀ c ∈ root.preorder, Regular c) :
    List.Forall₂ (fun id c => usedName? f id = usedIn c ∧ declaredName? f id = declaredIn c)
      (f.walk start) root.preorder := by
  have hwalk := h.forall₂_walk hsize
  generalize f.walk start = ids at hwalk
  generalize root.preorder = cs at hwalk hregular
  induction hwalk with
  | nil => exact .nil
  | cons hfirst _ ih =>
    obtain ⟨above, hfirst⟩ := hfirst
    exact .cons (names_of_mirrors hfirst (hregular _ (by simp)))
      (ih fun c hc => hregular c (by simp [hc]))

theorem unresolved_eq_none_iff {declared : Table String NodeId} {id : NodeId} :
    unresolved f declared id = none ↔ ∀ x, usedName? f id = some x → declared.contains x := by
  cases hused : usedName? f id with
  | none => simp [unresolved, hused]
  | some x => simp [unresolved, hused]

/-- Linking the tree of a program reports nothing if every name that is used is declared. -/
theorem unresolved_eq_nil_iff (h : f.Mirrors (lenient.Depicts Serves) none start (treeOf input))
    (hsize : start + (treeOf input).nodeCount ≤ f.size)
    (hns : ProgramTrees input (streamOf input).pending ns) :
    (f.walk start).filterMap (unresolved f (declarations f (f.walk start))) = [] ↔
      ∀ x, Uses (streamOf input).pending x → Declares (streamOf input).pending x := by
  rw [treeOf_of_programTrees hns] at h hsize
  have hnames := forall₂_names h hsize (hns.regular _ _)
  have hused : ∀ x, (∃ id ∈ f.walk start, usedName? f id = some x) ↔
      Uses (streamOf input).pending x := by
    intro x
    rw [exists_iff_of_forall₂ (hnames.imp fun _ _ hc => hc.1), exists_preorder_programTree rfl,
      Uses, hns.follows_iff marks_uses covers_pending]
    simp
  have hdeclared : ∀ x, (∃ id ∈ f.walk start, declaredName? f id = some x) ↔
      Declares (streamOf input).pending x := by
    intro x
    rw [exists_iff_of_forall₂ (hnames.imp fun _ _ hc => hc.2), exists_preorder_programTree rfl,
      Declares, hns.follows_iff marks_declares covers_pending]
    simp
  rw [List.filterMap_eq_nil_iff]
  simp only [unresolved_eq_none_iff, contains_declarations, hdeclared, ← hused]
  constructor
  · rintro hall x ⟨id, hid, hx⟩
    exact hall id hid x hx
  · intro hall id hid x hx
    exact hall x ⟨id, hid, hx⟩

end Linking

/-- An integer literal that is out of range is an error node, which is not reported. -/
theorem isKind_errorNode {f : Forest} {parent : Option Nat} {id : NodeId} {n : ParseNode}
    (h : f.Mirrors (lenient.Depicts Serves) parent id n) (hrule : n.rule = Rule.intLiteral)
    (hread : ∀ i, Integer64.read n.text ≠ .ok i) : f.isKind id .errorNode := by
  obtain ⟨hnode, hm, -, -⟩ := h
  cases hr : Integer64.read n.text with
  | ok i => exact absurd hr (hread i)
  | error e =>
    have hd := portrait_intLiteral_of_error hm.look hrule hr
    rw [isKind_of_describes hnode hd (by decide) (by decide)]
    rfl

/-- The tokens on the default channel before the end of the input. -/
def visible (input : String) : List Token :=
  ((tokenize input).1.filter (·.isDefault)).takeWhile (!·.isEof)

theorem pending_streamOf (input : String) : (streamOf input).pending = visible input :=
  pending_ofTokens input (tokenize input).1

/-- Parsing any text with a new registry comes to an end. The result is correct exactly if tokens
make up the text, the visible ones derive from the grammar, and each identifier that is used is
declared somewhere. Integers that are out of range do not count: error nodes stand for them. Lines
and columns of the text are counted without a bound. -/
theorem parse_correct_iff (input : String) (policy : ConflictPolicy) (f : Forest) :
    ∃ result root w', (language {}).parse input { world := ⟨.empty policy, f⟩ } =
        (.ok result, w') ∧
      result.root = some root ∧
      (result.correct ↔ String.join ((tokenize input).1.map (·.text)) = input ∧
        IsProgram ((visible input).map (·.kind)) ∧
        ∀ x, Uses (visible input) x → Declares (visible input) x) ∧
      ∀ id ∈ w'.world.forest.walk root, ∀ m n, w'.world.forest.node? id = some m →
        m.origin = some (.source (.tree n)) → n.rule = Rule.intLiteral →
        (∀ i, Integer64.read n.text ≠ .ok i) → w'.world.forest.isKind id .errorNode := by
  obtain ⟨result, w', mapped, hparse, h⟩ := exists_parses input policy f
  refine ⟨result, f.size, w', hparse, h.root, ?_, ?_⟩
  · rw [ParsingResult.correct, h.issues, noneBlocking_iff (allBlocking_append
      (allBlocking_earlyIssues input) (allBlocking_unresolved _ _ _)), List.append_eq_nil_iff,
      earlyIssues_eq_nil_iff, pending_streamOf, and_assoc]
    refine and_congr_right fun _ => and_congr_right fun hprogram => ?_
    rw [← pending_streamOf] at hprogram ⊢
    obtain ⟨ns, hns⟩ := exists_programTrees input hprogram
    exact unresolved_eq_nil_iff h.mirrors h.size hns
  · intro id hid m n hm horigin hrule hread
    obtain ⟨c, -, above, hc⟩ := exists_of_forall₂ (h.mirrors_final.forall₂_walk h.size_final) hid
    have hsame : c = n := by
      obtain ⟨hnode, hstands, -, -⟩ := hc
      obtain rfl := Option.some.inj (hnode.symm.trans hm)
      simpa [hstands.origin] using horigin
    exact isKind_errorNode (hsame ▸ hc) hrule hread

end Arbor.Script
