import Arbor.Proofs.Script.Forms
import Arbor.Proofs.Script.Verdict

/-!
Error markers and the reports about them. Whatever the tokens are, a rule reports just what it
marks, and in the same order, since a mismatch gives one marker and one report and a sum keeps
what is on its left in front. So the issues of a first stage can be read off the tree: those of
lexing, one for each marker, and one more for each marker found in the tree.
-/
namespace Arbor

namespace ErrorMarker

/-- The report that goes with a marker. -/
def report (m : ErrorMarker) : Issue := .syntactic m.message (some m.position)

/-- How messages of markers begin. -/
def Phrased (m : ErrorMarker) : Prop :=
  ∃ rest, m.message = "mismatched input '" ++ rest ∨ m.message = "extraneous input '" ++ rest

theorem Phrased.ne_unconsumed {m : ErrorMarker} (h : m.Phrased) :
    m.message ≠ "whole input not consumed" := by
  intro hmessage
  obtain ⟨rest, hm | hm⟩ := h
  · simp [← String.toList_inj, hmessage] at hm
  · simp [← String.toList_inj, hmessage] at hm

end ErrorMarker

namespace Script
open ParseTree

theorem markersOf_append (children more : List ParseTree) :
    markersOf (children ++ more) = markersOf children ++ markersOf more := by
  induction children with
  | nil => rfl
  | cons c children ih => rw [List.cons_append, markersOf, ih, markersOf, List.append_assoc]

theorem markersOf_map_token (ts : List Token) : markersOf (ts.map token) = [] := by
  induction ts with
  | nil => rfl
  | cons t ts ih => exact ih

/-- The issues are the reports of the markers. -/
structure Reported (markers : List ErrorMarker) (issues : List Issue) : Prop where
  issues : issues = markers.map ErrorMarker.report
  phrased : ∀ m ∈ markers, m.Phrased

section Reports
variable {markers more : List ErrorMarker} {issues others : List Issue} {m : ErrorMarker}

theorem reported_nil : Reported [] [] := ⟨rfl, by simp⟩

theorem reported_singleton (h : m.Phrased) : Reported [m] [m.report] := ⟨rfl, by simpa using h⟩

theorem Reported.append (h : Reported markers issues) (h' : Reported more others) :
    Reported (markers ++ more) (issues ++ others) where
  issues := by rw [h.issues, h'.issues, List.map_append]
  phrased := List.forall_mem_append.mpr ⟨h.phrased, h'.phrased⟩

end Reports

section Parts
variable (source : String) (last : Token) {t : Token}

/-- A part of a rule reports what it marks. -/
def Reports (next : List Token → Match) : Prop :=
  ∀ ts, Reported (markersOf (next ts).children) (next ts).issues

theorem phrased_mismatch (t : Token) (found expected : String) :
    ErrorMarker.Phrased ⟨t, "mismatched input '" ++ found ++ "' expecting " ++ expected⟩ :=
  ⟨_, .inl ((String.append_assoc ..).trans (String.append_assoc ..))⟩

theorem phrased_extraneous (t : Token) : (extraneous t).Phrased :=
  ⟨_, .inr (String.append_assoc ..)⟩

theorem reports_mismatch (expected : String) : Reports (mismatch last expected) := by
  intro ts
  have hskipped := markersOf_map_token (ts.takeWhile (!startsStatement ·))
  simp only [mismatch, markersOf, markers, hskipped, List.append_nil]
  exact reported_singleton (phrased_mismatch _ _ _)

theorem reports_expectAny (kinds : List TokenKind) (expected : String) :
    Reports (expectAny last kinds expected) := by
  intro ts
  unfold expectAny
  split
  · exact reports_mismatch last expected []
  · split
    · exact reported_nil
    · exact reports_mismatch last expected _

theorem Reports.andThen {first next : List Token → Match} (hf : Reports first)
    (hn : Reports next) : Reports fun ts => (first ts).andThen next := by
  intro ts
  by_cases hfit : (first ts).fits
  · simp only [Match.andThen, hfit, if_true, markersOf_append]
    exact (hf ts).append (hn _)
  · simp only [andThen_of_not_fits hfit]
    exact hf ts

theorem errorMarkers_sum (left : ParseNode) (children : List ParseTree) :
    (sum source left children).errorMarkers = left.errorMarkers ++ markersOf children := rfl

/-- A sum keeps the markers on its left in front of what it adds. -/
theorem reported_sumFrom {left : ParseNode} {issues : List Issue}
    (h : Reported left.errorMarkers issues) (ts : List Token) :
    Reported (sumFrom source last left ts).1.errorMarkers
      (issues ++ (sumFrom source last left ts).2.1) := by
  fun_induction sumFrom source last left ts with
  | case1 => rwa [List.append_nil]
  | case2 => exact h.append (reports_mismatch last "expression" [])
  | case3 => rwa [List.append_nil]
  | case4 left t u rest _ rule _ ih =>
    apply ih
    have hnone : markersOf [.token t, .node (operand source rule u)] = [] := rfl
    rwa [errorMarkers_sum, hnone, List.append_nil]
  | case5 _ _ u rest => exact h.append (reports_mismatch last "expression" (u :: rest))
  | case6 => rwa [List.append_nil]

theorem reports_expectExpression : Reports (expectExpression source last) := by
  intro ts
  unfold expectExpression
  split
  · next n issues rest he =>
    obtain _ | ⟨t, ts⟩ := ts
    · simp [expression] at he
    obtain ⟨rule, -, he⟩ := Option.map_eq_some_iff.mp he
    have hfirst : Reported (operand source rule t).errorMarkers [] := reported_nil
    have hsum := reported_sumFrom source last hfirst ts
    rw [he] at hsum
    show Reported (n.errorMarkers ++ []) issues
    rwa [List.append_nil]
  · exact reports_mismatch last "expression" ts

theorem reported_statement (ht : startsStatement t) (ts : List Token) :
    Reported (statement source last (t :: ts)).1.errorMarkers
      (statement source last (t :: ts)).2.1 := by
  obtain ⟨rule, -, next, hnext, heq⟩ := exists_part_of_keyword source last
    (fun kinds _ => reports_expectAny last kinds) (reports_expectExpression source last)
    Reports.andThen ht
  rw [heq]
  exact hnext ts

theorem reported_statements (fuel : Nat) (ts : List Token) :
    Reported (markersOf (statements source last fuel ts).1)
      (statements source last fuel ts).2.1 := by
  induction fuel generalizing ts with
  | zero => cases ts <;> exact reported_nil
  | succ fuel ih =>
    obtain _ | ⟨t, ts⟩ := ts
    · exact reported_nil
    by_cases ht : startsStatement t
    · simp only [statements, ht, if_true, markersOf]
      exact (reported_statement source last ht ts).append (ih _)
    · simp only [statements, ht]
      exact (reported_singleton (phrased_extraneous t)).append (ih ts)

theorem reported_compilationUnit (ts : List Token) :
    Reported (compilationUnit source last ts).1.errorMarkers
      (compilationUnit source last ts).2.1 := by
  have hend : (compilationUnit source last ts).1.errorMarkers =
      markersOf (statements source last ts.length ts).1 := by
    show markersOf (_ ++ [.token (currentOf last _)]) = _
    rw [markersOf_append]
    exact List.append_nil _
  rw [hend]
  exact reported_statements source last ts.length ts

end Parts

section Lexer
variable {pre cs : List Char} {index : Nat} {pieces : List Piece}

/-- One issue ends before the other begins. -/
def Precedes (i j : Issue) : Prop :=
  ∃ a b, i.position = some a ∧ j.position = some b ∧ a.stop ≤ b.start

/-- Characters that are passed over lie one behind the other, and behind what was read before. -/
theorem Cuts.precedes (h : Cuts pre index cs pieces) (hpre : ¬ Point.CutsBreak pre cs) :
    (Piece.issuesOf pieces).Pairwise Precedes ∧ ∀ i ∈ Piece.issuesOf pieces,
      ∃ a, i.position = some a ∧ Point.start.advanceChars pre ≤ a.start := by
  induction h with
  | done => simp
  | @token pre text rest index rule pieces hwins _ hmatches hcut h ih =>
    obtain ⟨hline, hbehind⟩ := ih hcut
    have hne := hmatches.ne_nil (shape_ne_word_nil rule (mem_lexicalRules_of_wins hwins))
    have htext : ¬ Point.CutsBreak pre text := by rwa [Point.cutsBreak_append_right hne] at hpre
    refine ⟨hline, fun i hi => ?_⟩
    obtain ⟨a, ha, hplace⟩ := hbehind i hi
    exact ⟨a, ha, Point.le_trans (Point.advanceChars_le_append _ htext) hplace⟩
  | @skipped pre rest c index pieces _ hcut h ih =>
    obtain ⟨hline, hbehind⟩ := ih hcut
    have hchar : ¬ Point.CutsBreak pre [c] := by
      rwa [← List.singleton_append, Point.cutsBreak_append_right (by simp)] at hpre
    have hstop := Point.advanceChars_append Point.start hchar
    refine ⟨List.pairwise_cons.mpr ⟨fun j hj => ?_, hline⟩, fun i hi => ?_⟩
    · obtain ⟨b, hb, hplace⟩ := hbehind j hj
      exact ⟨_, b, rfl, hb, hstop ▸ hplace⟩
    · rcases List.mem_cons.mp hi with rfl | hi
      · exact ⟨_, rfl, Point.le_refl _⟩
      · obtain ⟨a, ha, hplace⟩ := hbehind i hi
        exact ⟨a, ha, Point.le_trans (Point.advanceChars_le_append _ hchar) hplace⟩

theorem eq_unrecognized_of_mem {i : Issue} (h : i ∈ Piece.issuesOf pieces) :
    ∃ c place, i = unrecognized c place := by
  obtain ⟨p, -, hp⟩ := List.mem_filterMap.mp h
  cases p with
  | token t => simp [Piece.issue?] at hp
  | skipped c place => exact ⟨c, place, (Option.some.inj hp).symm⟩

end Lexer

theorem message_unrecognized_ne (c : Char) (place : Point) :
    (unrecognized c place).message ≠ "whole input not consumed" := by
  simp [unrecognized, Issue.lexical, ← String.toList_inj]

section Texts
variable {input : String} {i : Issue}

theorem exists_unrecognized (h : i ∈ (tokenize input).2) : ∃ c place, i = unrecognized c place := by
  obtain ⟨pieces, -, -, hlexical⟩ := exists_cuts_tokenize input
  exact eq_unrecognized_of_mem (hlexical ▸ h)

theorem kind_of_mem_tokenize (h : i ∈ (tokenize input).2) : i.kind = .lexical := by
  obtain ⟨c, place, rfl⟩ := exists_unrecognized h
  rfl

theorem reported_treeOf (input : String) : Reported (treeOf input).errorMarkers
    (parseRule "compilationUnit" (streamOf input)).issues :=
  reported_compilationUnit _ _ _

/-- The issues before the mapping are those of lexing and two for each marker. -/
theorem earlyIssues_eq (input : String) : earlyIssues input = (tokenize input).2 ++
    (treeOf input).errorMarkers.map ErrorMarker.report ++
    (treeOf input).errorMarkers.map fun m => .syntactic "error node found" (some m.position) := by
  simp only [earlyIssues, unconsumed_parseRule, root_parseRule, (reported_treeOf input).issues,
    List.append_nil, Language.markerIssues, Option.map_some, Option.getD_some]

theorem earlyIssues_cases (h : i ∈ earlyIssues input) : i ∈ (tokenize input).2 ∨
    ∃ m ∈ (treeOf input).errorMarkers,
      i = m.report ∨ i = .syntactic "error node found" (some m.position) := by
  rw [earlyIssues_eq, List.mem_append, List.mem_append] at h
  rcases h with (h | h) | h
  · exact .inl h
  · obtain ⟨m, hm, rfl⟩ := List.mem_map.mp h
    exact .inr ⟨m, hm, .inl rfl⟩
  · obtain ⟨m, hm, rfl⟩ := List.mem_map.mp h
    exact .inr ⟨m, hm, .inr rfl⟩

end Texts

/-- Parsing a stream reports one issue for each marker of the tree, in the order of the tree and
with the marker's message and position. So for any text the issues of the first stage are those of
lexing, in the order of the text, then these, and then one more for each marker that is found in the
tree. That input is left over is never among them. -/
theorem issues_eq_markers :
    (∀ s : TokenStream, ∃ tree, (parseRule "compilationUnit" s).root = some tree ∧
      (parseRule "compilationUnit" s).issues =
        tree.errorMarkers.map fun m => .syntactic m.message (some m.position)) ∧
    ∀ (config : TransformerConfig) (input : String) (timed : Bool), ∃ first tree,
      (language config).parseFirstStage input timed = .ok first ∧ first.root = some tree ∧
      first.issues = (tokenize input).2 ++
        tree.errorMarkers.map (fun m => .syntactic m.message (some m.position)) ++
        tree.errorMarkers.map (fun m => .syntactic "error node found" (some m.position)) ∧
      (tokenize input).2.Pairwise Precedes ∧
      (∀ i ∈ (tokenize input).2, i.kind = .lexical) ∧
      ∀ i ∈ first.issues, i.message ≠ "whole input not consumed" := by
  refine ⟨fun s => ⟨_, rfl, (reported_compilationUnit _ _ _).issues⟩, fun config input timed => ?_⟩
  refine ⟨_, _, parseFirstStage_eq config input timed, rfl, earlyIssues_eq input, ?_,
    fun i hi => kind_of_mem_tokenize hi, fun i hi => ?_⟩
  · obtain ⟨pieces, hcuts, -, hlexical⟩ := exists_cuts_tokenize input
    rw [hlexical]
    exact (hcuts.precedes (Point.not_cutsBreak_nil _)).1
  · rcases earlyIssues_cases hi with hi | ⟨m, hm, rfl | rfl⟩
    · obtain ⟨c, place, rfl⟩ := exists_unrecognized hi
      exact message_unrecognized_ne c place
    · exact ((reported_treeOf input).phrased m hm).ne_unconsumed
    · simp [Issue.syntactic]

end Script

end Arbor
