import Arbor.Proofs.Script.Forms
import Arbor.Proofs.Script.Independence
import Arbor.Proofs.Script.Verdict

/-!
Texts of nodes as slices of the source. The pieces of a text, hidden tokens and passed over
characters with them, stand where the text before them leads, so a run of them that begins and ends
with tokens is what the range between these tokens covers. The first and the last token of a rule
node are tokens of the text in their order, hence its text is such a run and is always there.
-/
namespace Arbor.Script
open Point (CutsBreak)

/-- The piece lies where the text before it leads, and not inside a CR LF. -/
structure Stands (before : List Piece) (p : Piece) (after : List Piece) : Prop where
  start : ¬ CutsBreak (Piece.joined before).toList
    (p.text.toList ++ (Piece.joined after).toList)
  stop : ¬ CutsBreak ((Piece.joined before).toList ++ p.text.toList)
    (Piece.joined after).toList
  position : p.position? = some ⟨Point.start.advanceChars (Piece.joined before).toList,
    Point.start.advanceChars ((Piece.joined before).toList ++ p.text.toList)⟩

/-- The pieces of a text: all tokens, the end of the input last, and the characters passed over. -/
structure Tiles (input : String) (pieces : List Piece) : Prop where
  joined : Piece.joined pieces = input
  tokens : Piece.tokensOf pieces = (tokenize input).1
  issues : Piece.issuesOf pieces = (tokenize input).2
  stands {before after : List Piece} {p : Piece} (h : pieces = before ++ p :: after) :
    Stands before p after

section Pieces
variable {input : String} {pieces before mid after : List Piece} {t u : Token}

theorem map_token_sublist (pieces : List Piece) :
    ((Piece.tokensOf pieces).map Piece.token).Sublist pieces := by
  induction pieces with
  | nil => exact .slnil
  | cons p pieces ih =>
    cases p with
    | token t => exact ih.cons_cons _
    | skipped c place => exact ih.cons _

/-- The end of the input stands behind everything. -/
theorem stands_eof {index : Nat} (h : Piece.joined pieces = input) :
    Stands pieces (.token (.eof (Point.start.advance input) index)) [] where
  start := by simp [Piece.text, Token.eof, CutsBreak]
  stop := by simp [CutsBreak]
  position := by
    simp [h, Piece.position?, Piece.text, Token.position, Token.stop, Token.eof, Point.advance,
      Point.advanceChars]

theorem exists_tiles (input : String) : ∃ pieces, Tiles input pieces := by
  obtain ⟨pieces, hcuts, htokens, hissues⟩ := exists_cuts_tokenize input
  set last := Token.eof (Point.start.advance input) (Piece.tokensOf pieces).length
  have hend : (Piece.joined [.token last]).toList = [] := rfl
  refine ⟨pieces ++ [.token last], ?_, ?_, ?_, fun {before after p} hsplit => ?_⟩
  · rw [← String.toList_inj, Piece.toList_joined_append, hend, List.append_nil, hcuts.toList_joined]
  · rw [htokens, Piece.tokensOf, List.filterMap_append]
    rfl
  · rw [hissues, Piece.issuesOf, List.filterMap_append]
    exact List.append_nil _
  · rcases List.eq_nil_or_concat' after with rfl | ⟨after, q, rfl⟩
    · -- the end of the input
      obtain ⟨rfl, hp⟩ := List.append_inj' hsplit rfl
      obtain rfl := List.head_eq_of_cons_eq hp
      exact stands_eof (joined_eq hcuts)
    · -- a piece of the cut, which the end of the input adds no text to
      rw [← List.cons_append, ← List.append_assoc] at hsplit
      obtain ⟨rfl, hq⟩ := List.append_inj' hsplit rfl
      obtain rfl := List.head_eq_of_cons_eq hq
      obtain ⟨-, hstart, hstop, hposition⟩ := hcuts.of_split (Point.not_cutsBreak_nil _) rfl
      refine ⟨?_, ?_, hposition⟩
      · rwa [Piece.toList_joined_append, hend, List.append_nil]
      · rwa [Piece.toList_joined_append, hend, List.append_nil]

/-- A run of pieces from a token to a token is what the range between them covers. -/
theorem Tiles.textOf_run (h : Tiles input pieces) (hsplit : pieces = before ++ mid ++ after)
    (ht : mid.head? = some (.token t)) (hu : mid.getLast? = some (.token u)) :
    Position.textOf ⟨t.start, u.stop⟩ input = some (Piece.joined mid) := by
  obtain ⟨more, hmore⟩ := List.head?_eq_some_iff.mp ht
  obtain ⟨front, hfront⟩ := List.getLast?_eq_some_iff.mp hu
  have hfirst : Stands before (.token t) (more ++ after) := h.stands (by simp [hsplit, hmore])
  have hlast : Stands (before ++ front) (.token u) after := h.stands (by simp [hsplit, hfront])
  have hfirst_mid : (Piece.joined mid).toList = t.text.toList ++ (Piece.joined more).toList := by
    rw [hmore, Piece.toList_joined_cons, Piece.text]
  have hmid_last : (Piece.joined mid).toList = (Piece.joined front).toList ++ u.text.toList := by
    rw [hfront, Piece.toList_joined_append]
    simp [Piece.text]
  have hcut := hfirst.start
  have hcut' := hlast.stop
  rw [Piece.toList_joined_append, ← List.append_assoc, Piece.text, ← hfirst_mid] at hcut
  rw [Piece.toList_joined_append, List.append_assoc, Piece.text, ← hmid_last] at hcut'
  have hstart : t.start = Point.start.advanceChars (Piece.joined before).toList :=
    congrArg Position.start (Option.some.inj hfirst.position)
  have hstop : u.stop = Point.start.advanceChars
      ((Piece.joined (before ++ front)).toList ++ u.text.toList) :=
    congrArg Position.stop (Option.some.inj hlast.position)
  rw [Piece.toList_joined_append, List.append_assoc, ← hmid_last] at hstop
  have hinput : input.toList = (Piece.joined before).toList ++ (Piece.joined mid).toList ++
      (Piece.joined after).toList := by
    rw [← h.joined, hsplit, Piece.toList_joined_append, Piece.toList_joined_append]
  rw [hstart, hstop, Position.textOf_of_cuts hcut hcut' hinput, String.ofList_toList]

/-- Members of a list in their order have a run of the list between them. -/
theorem exists_run {α : Type} {l ps : List α} {x y : α} (h : l.Sublist ps) (hx : l.head? = some x)
    (hy : l.getLast? = some y) : ∃ before mid after, ps = before ++ mid ++ after ∧
      mid.head? = some x ∧ mid.getLast? = some y := by
  induction h with
  | slnil => simp at hx
  | cons a h ih =>
    obtain ⟨before, mid, after, rfl, hhead, hlast⟩ := ih hx hy
    exact ⟨a :: before, mid, after, rfl, hhead, hlast⟩
  | @cons_cons l ps a h ih =>
    obtain rfl := Option.some.inj hx
    rcases List.eq_nil_or_concat' l with rfl | ⟨front, z, rfl⟩
    · exact ⟨[], [a], ps, rfl, rfl, hy⟩
    · obtain rfl : z = y := by simpa [List.getLast?_cons] using hy
      have hz : z ∈ ps := h.subset (by simp)
      obtain ⟨others, after, rfl⟩ := List.append_of_mem hz
      exact ⟨[], a :: others ++ [z], after, by simp, rfl, by simp [List.getLast?_cons]⟩

end Pieces

section Nodes
variable {input : String} {pieces : List Piece} {ts : List Token} {n : ParseNode}

/-- The first and the last token of the node are members of `ts` in their order. -/
def Bounded (ts : List Token) (n : ParseNode) : Prop :=
  ∃ held : List Token, held.Sublist ts ∧ held.head? = some n.start ∧ n.stop = held.getLast?

theorem Spanned.bounded (h : Spanned n) (hts : n.leaves.Sublist ts) :
    ∀ c ∈ n.preorder, Bounded ts c := by
  induction h with
  | @intro n hstart hstop _ ih =>
    intro c hc
    rw [RuleNode.preorder_eq] at hc
    rcases List.mem_cons.mp hc with rfl | hc
    · exact ⟨_, hts, hstart, hstop⟩
    · obtain ⟨d, hd, hc⟩ := List.mem_flatMap.mp hc
      exact ih d hd ((RuleNode.leaves_sublist_of_mem hd).trans hts) c hc

theorem bounded_treeOf (input : String) : ∀ n ∈ (treeOf input).preorder,
    Bounded ((streamOf input).pending ++ [(streamOf input).endToken]) n := by
  have hline := (inLine_tokenize input).1
  intro n hn
  rw [RuleNode.preorder_eq] at hn
  rcases List.mem_cons.mp hn with rfl | hn
  · refine ⟨_, List.Sublist.refl _, ?_, ?_⟩
    · show _ = some (currentOf _ _)
      cases (streamOf input).pending <;> rfl
    · rw [List.getLast?_concat]
      exact stop_compilationUnit input _ hline.ascending
  · obtain ⟨d, hd, hn⟩ := List.mem_flatMap.mp hn
    refine (spanned_below_compilationUnit input _ hline.ascending d hd).bounded ?_ n hn
    exact (RuleNode.leaves_sublist_of_mem hd).trans (leaves_compilationUnit ..)

theorem sublist_tokenize (input : String) :
    ((streamOf input).pending ++ [(streamOf input).endToken]).Sublist (tokenize input).1 := by
  obtain ⟨words, -, hwords, hpending, hend⟩ := stream_tokenize input
  rw [streamOf, hpending, hend, hwords]
  exact List.filter_sublist.append (List.Sublist.refl _)

/-- The text of the node is made up by the pieces from its first token to its last one, and is what
its range covers. -/
structure Slice (pieces : List Piece) (n : ParseNode) (mid : List Piece) (stop : Token) : Prop where
  run : mid <:+: pieces
  first : mid.head? = some (.token n.start)
  last : mid.getLast? = some (.token stop)
  stop : n.stop = some stop
  covered : n.position.textOf n.input = some n.text
  text : n.text = Piece.joined mid

theorem exists_slice (h : Tiles input pieces) (hn : n ∈ (treeOf input).preorder) :
    ∃ mid stop, Slice pieces n mid stop := by
  obtain ⟨held, hheld, hstart, hstop⟩ := bounded_treeOf input n hn
  obtain ⟨u, hu⟩ : ∃ u, held.getLast? = some u := by
    obtain ⟨rest, rfl⟩ := List.head?_eq_some_iff.mp hstart
    exact ⟨_, List.getLast?_cons⟩
  have hpieces : (held.map Piece.token).Sublist pieces := by
    have htokens := hheld.trans (sublist_tokenize input)
    rw [← h.tokens] at htokens
    exact (htokens.map _).trans (map_token_sublist pieces)
  obtain ⟨before, mid, after, hsplit, hfirst, hlast⟩ :=
    exists_run hpieces (by rw [List.head?_map, hstart]; rfl) (by rw [List.getLast?_map, hu]; rfl)
  have hposition := position_of_bounds ((inLine_tokenize input).1.sublist hheld) hstart hu rfl
    (hstop.trans hu)
  have hcovered : n.position.textOf n.input = some (Piece.joined mid) := by
    rw [hposition, ((formed_treeOf input).preorder n hn).input_eq]
    exact h.textOf_run hsplit hfirst hlast
  have htext : n.text = Piece.joined mid := by rw [RuleNode.text, hcovered, Option.getD_some]
  exact ⟨mid, u, ⟨⟨before, after, hsplit.symm⟩, hfirst, hlast, hstop.trans hu,
    htext ▸ hcovered, htext⟩⟩

/-- A node over a single token has the text of this token. -/
theorem exists_token_of_operand (hn : n ∈ (treeOf input).preorder) (hrule : n.rule ∈ operandRules) :
    ∃ t ∈ (tokenize input).1, n.children = [.token t] ∧ n.text = t.text := by
  obtain ⟨t, -, heq⟩ := ((formed_treeOf input).preorder n hn).eq_operand hrule
  have ht : t ∈ (tokenize input).1 := by
    obtain ⟨held, hheld, hstart, -⟩ := bounded_treeOf input n hn
    rw [heq] at hstart
    exact (hheld.trans (sublist_tokenize input)).subset (List.mem_of_head? hstart)
  refine ⟨t, ht, by rw [heq]; rfl, ?_⟩
  rw [heq, text_operand (textOf_token ht)]

end Nodes

/-- Texts of nodes are slices of the source. For any text, after whatever jobs of the parser: the
pieces of the text are its tokens, hidden ones too, and the characters passed over, each where the
text before it leads. The text of a rule node of the tree is there and made up by the pieces from
the first token of the node to its last one. Each node of the syntax tree comes from the rule node
in its place and has the same text. For literals and uses of variables it is the text of their
single token. -/
theorem texts_are_slices (input : String) (policy : ConflictPolicy) (f : Forest) (jobs : List Job)
    (meanwhile : Forest → Forest) :
    ∃ pieces result root tree w', Tiles input pieces ∧
      Job.run ⟨input, {}, meanwhile⟩ (language {})
        (Job.leave (language {}) jobs { world := ⟨.empty policy, f⟩ }) = (.ok result, w') ∧
      result.root = some root ∧ result.firstStage.root = some tree ∧
      (∀ n ∈ tree.preorder, ∃ mid stop, Slice pieces n mid stop) ∧
      List.Forall₂ (fun id n => (w'.world.forest.node? id).bind (·.origin) =
          some (.source (.tree n)) ∧ w'.world.forest.text id = some n.text)
        (w'.world.forest.walk root) tree.preorder ∧
      ∀ n ∈ tree.preorder, n.rule ∈ operandRules →
        ∃ t ∈ (tokenize input).1, n.children = [.token t] ∧ n.text = t.text := by
  obtain ⟨pieces, hpieces⟩ := exists_tiles input
  obtain ⟨start, result, w', mapped, hrun, h⟩ := exists_parses_after input policy f jobs meanwhile
  refine ⟨pieces, result, start, treeOf input, w', hpieces, hrun, h.root, ?_,
    fun n hn => exists_slice hpieces hn, ?_, fun n hn hrule => exists_token_of_operand hn hrule⟩
  · rw [h.firstStage]
    rfl
  · refine (h.mirrors_final.forall₂_walk h.size_final).imp fun id n ⟨above, hm⟩ =>
      ⟨?_, hm.text_eq⟩
    obtain ⟨hnode, hstands, -, -⟩ := hm
    rw [hnode, Option.bind_some, hstands.origin]

end Arbor.Script
