import Arbor.Proofs.Script.Spelling
import Arbor.Proofs.Text.Advance

/-!
How lexing cuts a text. The pieces are the texts of the tokens and the characters that belong to
none; they are not empty and make up the whole text. No cut falls inside a CR LF, since one rule
takes the pair and no other rule takes a CR. So the place that is counted piece by piece is the
place behind everything that was read, and the range of each piece covers just its text.
-/
namespace Arbor.Script
open Point (CutsBreak)

/-- A part of a text: the text of a token, or a character that is reported and passed over. -/
inductive Piece where
  | token (t : Token)
  | skipped (c : Char) (place : Point)

namespace Piece

def text : Piece → String
  | .token t => t.text
  | .skipped c _ => c.toString

def token? : Piece → Option Token
  | .token t => some t
  | .skipped .. => none

def issue? : Piece → Option Issue
  | .token _ => none
  | .skipped c place => some (unrecognized c place)

/-- The range of the token or of the issue. -/
def position? : Piece → Option Position
  | .token t => some t.position
  | .skipped c place => (unrecognized c place).position

def tokensOf (pieces : List Piece) : List Token := pieces.filterMap token?
def issuesOf (pieces : List Piece) : List Issue := pieces.filterMap issue?

@[simp] theorem tokensOf_nil : tokensOf [] = [] := rfl

@[simp] theorem tokensOf_token (t : Token) (pieces : List Piece) :
    tokensOf (.token t :: pieces) = t :: tokensOf pieces := rfl

@[simp] theorem tokensOf_skipped (c : Char) (place : Point) (pieces : List Piece) :
    tokensOf (.skipped c place :: pieces) = tokensOf pieces := rfl

@[simp] theorem issuesOf_nil : issuesOf [] = [] := rfl

@[simp] theorem issuesOf_token (t : Token) (pieces : List Piece) :
    issuesOf (.token t :: pieces) = issuesOf pieces := rfl

@[simp] theorem issuesOf_skipped (c : Char) (place : Point) (pieces : List Piece) :
    issuesOf (.skipped c place :: pieces) = unrecognized c place :: issuesOf pieces := rfl

/-- The text that pieces make up. -/
def joined (pieces : List Piece) : String := String.join (pieces.map text)

@[simp] theorem toList_joined_nil : (joined []).toList = [] := rfl

@[simp] theorem toList_joined_cons (p : Piece) (pieces : List Piece) :
    (joined (p :: pieces)).toList = p.text.toList ++ (joined pieces).toList := by
  simp [joined]

theorem toList_joined_append (pieces more : List Piece) :
    (joined (pieces ++ more)).toList = (joined pieces).toList ++ (joined more).toList := by
  simp [joined]

end Piece

/-- The text `cs`, behind `pre` and `index` tokens, is cut into pieces by longest matches, and
nowhere inside a CR LF. -/
inductive Cuts : List Char → Nat → List Char → List Piece → Prop
  | done {pre : List Char} {index : Nat} : Cuts pre index [] []
  | token {pre text rest : List Char} {index : Nat} {rule : LexicalRule} {pieces : List Piece}
      (hwins : Wins (text ++ rest) lexicalRules rule)
      (hlength : text.length = rule.length (text ++ rest)) (hmatches : rule.shape.Matches text)
      (hcut : ¬ CutsBreak (pre ++ text) rest) (h : Cuts (pre ++ text) (index + 1) rest pieces) :
      Cuts pre index (text ++ rest)
        (.token ⟨rule.kind, String.ofList text, Point.start.advanceChars pre, index, rule.channel⟩
          :: pieces)
  | skipped {pre rest : List Char} {c : Char} {index : Nat} {pieces : List Piece}
      (hnone : ∀ rule ∈ lexicalRules, rule.length (c :: rest) = 0)
      (hcut : ¬ CutsBreak (pre ++ [c]) rest) (h : Cuts (pre ++ [c]) index rest pieces) :
      Cuts pre index (c :: rest) (.skipped c (Point.start.advanceChars pre) :: pieces)

section Breaks

theorem shape_ne_word_nil : ∀ rule ∈ lexicalRules, rule.shape ≠ .word [] := by decide

theorem kind_ne_eof : ∀ rule ∈ lexicalRules, rule.kind ≠ .eof := by decide

theorem mem_lexicalRules_of_wins {cs : List Char} {rule : LexicalRule}
    (h : Wins cs lexicalRules rule) : rule ∈ lexicalRules := by
  obtain ⟨-, before, after, hrules, -⟩ := h
  rw [hrules]
  simp

theorem words_end_without_cr : ∀ rule ∈ lexicalRules, ∀ text, rule.shape = .word text →
    text.getLast? ≠ some '\r' := by
  intro rule hrule text htext
  have hall : lexicalRules.all fun rule => match rule.shape with
      | .word text => text.getLast? ≠ some '\r'
      | _ => true := by decide
  have h := List.all_eq_true.mp hall rule hrule
  simpa [htext] using h

/-- A match ends with a CR only where it is a line break. -/
theorem eq_cr_of_matches {rule : LexicalRule} (hrule : rule ∈ lexicalRules) {text : List Char}
    (h : rule.shape.Matches text) (hlast : text.getLast? = some '\r') :
    rule.shape = .lineBreak ∧ text = ['\r'] := by
  have hmem := List.mem_of_getLast? hlast
  cases hs : rule.shape with
  | word w =>
    rw [hs] at h
    obtain rfl : text = w := h
    exact absurd hlast (words_end_without_cr rule hrule text hs)
  | identifier =>
    rw [hs] at h
    obtain ⟨c, rest, rfl, hc, hrest⟩ := h
    rcases List.mem_cons.mp hmem with rfl | hmem
    · exact absurd hc (by decide)
    · exact absurd (hrest _ hmem) (by decide)
  | decimal =>
    rw [hs] at h
    obtain ⟨whole, part, rfl, -, -, hwhole, hpart⟩ := h
    simp only [List.mem_append, List.mem_cons] at hmem
    rcases hmem with hmem | hmem | hmem
    · exact absurd (hwhole _ hmem) (by decide)
    · exact absurd hmem (by decide)
    · exact absurd (hpart _ hmem) (by decide)
  | integer =>
    rw [hs] at h
    exact absurd (h.2 _ hmem) (by decide)
  | quoted =>
    rw [hs] at h
    obtain ⟨body, rfl, -⟩ := h
    simp [List.getLast?_cons, List.getLast?_append] at hlast
  | blanks =>
    rw [hs] at h
    exact absurd (h.2 _ hmem) (by decide)
  | lineBreak =>
    rw [hs] at h
    rcases h with rfl | rfl | rfl
    · simp at hlast
    · exact ⟨rfl, rfl⟩
    · simp at hlast

theorem not_cutsBreak_of_match {text rest : List Char} {rule : LexicalRule}
    (hrule : rule ∈ lexicalRules) (hlength : text.length = rule.length (text ++ rest))
    (hmatches : rule.shape.Matches text) : ¬ CutsBreak text rest := by
  rintro ⟨hlast, hhead⟩
  obtain ⟨hshape, rfl⟩ := eq_cr_of_matches hrule hmatches hlast
  obtain ⟨more, rfl⟩ := List.head?_eq_some_iff.mp hhead
  -- the pair would have been taken as one line break
  simp [LexicalRule.length, hshape, Shape.scan] at hlength

theorem not_cutsBreak_of_skipped {c : Char} {rest : List Char}
    (h : ∀ rule ∈ lexicalRules, rule.length (c :: rest) = 0) : ¬ CutsBreak [c] rest := by
  rintro ⟨hlast, -⟩
  obtain rfl : c = '\r' := by simpa using hlast
  have hmatch : Shape.Matches .lineBreak ['\r'] := .inr (.inl rfl)
  have hlength := Shape.length_le_scan hmatch rest
  have hnone := h ⟨newline, .lineBreak, Token.hidden⟩ (by decide)
  simp only [LexicalRule.length, List.length_singleton, List.singleton_append] at hlength hnone
  omega

end Breaks

/-- Scanning cuts the rest of a text into pieces. -/
theorem exists_cuts (index : Nat) {fuel : Nat} {pre cs : List Char} (hfuel : cs.length ≤ fuel)
    (hpre : ¬ CutsBreak pre cs) :
    ∃ pieces, Cuts pre index cs pieces ∧
      scanFrom fuel (Point.start.advanceChars pre) index cs =
        (Piece.tokensOf pieces ++
          [Token.eof (Point.start.advanceChars (pre ++ cs))
            (index + (Piece.tokensOf pieces).length)],
        Piece.issuesOf pieces) := by
  induction fuel generalizing index pre cs with
  | zero =>
    obtain rfl := List.length_eq_zero_iff.mp (Nat.le_zero.mp hfuel)
    exact ⟨[], .done, by simp [scanFrom]⟩
  | succ fuel ih =>
    obtain _ | ⟨c, cs⟩ := cs
    · exact ⟨[], .done, by simp [scanFrom]⟩
    cases hmatch : longestMatch (c :: cs) with
    | some best =>
      obtain ⟨rule, n⟩ := best
      obtain ⟨hwins, rfl⟩ := longestMatch_eq_some.mp hmatch
      have hrule := mem_lexicalRules_of_wins hwins
      obtain ⟨text, rest, hsplit, hlength, hmatches⟩ := Shape.exists_matches_of_scan hwins.1
      have hne := hmatches.ne_nil (shape_ne_word_nil rule hrule)
      change text.length = rule.length (c :: cs) at hlength
      rw [hsplit] at hpre hwins hlength hfuel
      have hcut : ¬ CutsBreak (pre ++ text) rest := by
        rw [Point.cutsBreak_append hne]
        exact not_cutsBreak_of_match hrule hlength hmatches
      have hrest : rest.length ≤ fuel := by
        have hpos := List.length_pos_iff.mpr hne
        rw [List.length_append] at hfuel
        omega
      obtain ⟨pieces, hcuts, hscan⟩ := ih (index + 1) hrest hcut
      have hpieces := Cuts.token hwins hlength hmatches hcut hcuts
      rw [← hsplit] at hpieces
      refine ⟨_, hpieces, ?_⟩
      have hplace : (Point.start.advanceChars pre).advanceChars text =
          Point.start.advanceChars (pre ++ text) := by
        rw [Point.advanceChars_append]
        rwa [Point.cutsBreak_append_right hne] at hpre
      rw [hsplit, ← hlength] at hmatch
      simp only [scanFrom, hsplit, hmatch, List.take_left, List.drop_left, hplace, hscan]
      simp [Nat.add_assoc, Nat.add_comm 1]
    | none =>
      have hnone := foldl_better_eq_none hmatch
      have hcut : ¬ CutsBreak (pre ++ [c]) cs := by
        rw [Point.cutsBreak_append (by simp)]
        exact not_cutsBreak_of_skipped hnone
      obtain ⟨pieces, hcuts, hscan⟩ := ih index (Nat.le_of_succ_le_succ hfuel) hcut
      refine ⟨_, .skipped hnone hcut hcuts, ?_⟩
      have hplace : (Point.start.advanceChars pre).advanceChars [c] =
          Point.start.advanceChars (pre ++ [c]) := by
        rw [Point.advanceChars_append]
        rwa [← List.singleton_append, Point.cutsBreak_append_right (by simp)] at hpre
      simp only [scanFrom, hmatch, hplace, hscan]
      simp

namespace Cuts
variable {pre cs : List Char} {index : Nat} {pieces : List Piece}

theorem toList_joined (h : Cuts pre index cs pieces) : (Piece.joined pieces).toList = cs := by
  induction h with
  | done => rfl
  | token _ _ _ _ _ ih => simp [Piece.text, ih]
  | skipped _ _ _ ih => simp [Piece.text, ih]

/-- Each piece is a part of the text that begins and ends at the ends of its range. -/
theorem of_split (h : Cuts pre index cs pieces) (hpre : ¬ CutsBreak pre cs)
    {before after : List Piece} {p : Piece} (hp : pieces = before ++ p :: after) :
    let a := pre ++ (Piece.joined before).toList
    let t := p.text.toList
    let b := (Piece.joined after).toList
    t ≠ [] ∧ ¬ CutsBreak a (t ++ b) ∧ ¬ CutsBreak (a ++ t) b ∧
      p.position? = some ⟨Point.start.advanceChars a, Point.start.advanceChars (a ++ t)⟩ := by
  induction h generalizing before with
  | done => simp at hp
  | @token pre text rest index rule pieces hwins hlength hmatches hcut h ih =>
    have hne := hmatches.ne_nil (shape_ne_word_nil rule (mem_lexicalRules_of_wins hwins))
    have hjoined := h.toList_joined
    rcases before with - | ⟨q, before⟩
    · obtain ⟨rfl, rfl⟩ := List.cons.inj hp
      have hstart : ¬ CutsBreak pre text := by rwa [Point.cutsBreak_append_right hne] at hpre
      simp only [Piece.toList_joined_nil, List.append_nil, Piece.text, String.toList_ofList,
        hjoined, Piece.position?, Token.position, Token.stop, Point.advance,
        Point.advanceChars_append _ hstart]
      exact ⟨hne, hpre, hcut, trivial⟩
    · obtain ⟨rfl, rfl⟩ := List.cons.inj hp
      simpa [Piece.text] using ih hcut rfl
  | @skipped pre rest c index pieces hnone hcut h ih =>
    have hjoined := h.toList_joined
    rcases before with - | ⟨q, before⟩
    · obtain ⟨rfl, rfl⟩ := List.cons.inj hp
      have hstart : ¬ CutsBreak pre [c] := by
        rwa [← List.singleton_append, Point.cutsBreak_append_right (by simp)] at hpre
      simp only [Piece.toList_joined_nil, List.append_nil, Piece.text, hjoined, Piece.position?,
        Char.toString_eq_singleton, String.toList_singleton, unrecognized, Issue.lexical,
        Point.advanceChars_append _ hstart]
      exact ⟨by simp, hpre, hcut, trivial⟩
    · obtain ⟨rfl, rfl⟩ := List.cons.inj hp
      simpa [Piece.text] using ih hcut rfl

theorem index_eq (h : Cuts pre index cs pieces) {i : Nat} {t : Token}
    (ht : (Piece.tokensOf pieces)[i]? = some t) : t.index = index + i := by
  induction h generalizing i with
  | done => simp at ht
  | token _ _ _ _ _ ih =>
    rcases i with - | i
    · obtain rfl := Option.some.inj ht
      rfl
    · have hi := ih ht
      omega
  | skipped _ _ _ ih => exact ih ht

theorem not_isEof (h : Cuts pre index cs pieces) {t : Token} (ht : t ∈ Piece.tokensOf pieces) :
    ¬ t.isEof := by
  induction h with
  | done => simp at ht
  | token hwins _ _ _ _ ih =>
    rcases List.mem_cons.mp ht with rfl | ht
    · simpa [Token.isEof] using kind_ne_eof _ (mem_lexicalRules_of_wins hwins)
    · exact ih ht
  | skipped _ _ _ ih => exact ih ht

end Cuts

/-- The cut of a whole text. -/
theorem exists_cuts_tokenize (input : String) :
    ∃ pieces, Cuts [] 0 input.toList pieces ∧
      (tokenize input).1 = Piece.tokensOf pieces ++
        [Token.eof (Point.start.advance input) (Piece.tokensOf pieces).length] ∧
      (tokenize input).2 = Piece.issuesOf pieces := by
  obtain ⟨pieces, hcuts, hscan⟩ := exists_cuts 0 (Nat.le_refl input.toList.length)
    (Point.not_cutsBreak_nil input.toList)
  refine ⟨pieces, hcuts, ?_⟩
  have htokenize : tokenize input = _ := hscan
  simp [htokenize, Point.advance]

theorem joined_eq {input : String} {pieces : List Piece} (h : Cuts [] 0 input.toList pieces) :
    Piece.joined pieces = input :=
  String.toList_inj.mp h.toList_joined

/-- The range of a piece covers just its text. -/
theorem textOf_piece {input : String} {pieces : List Piece} (h : Cuts [] 0 input.toList pieces)
    {p : Piece} (hp : p ∈ pieces) : p.position?.bind (·.textOf input) = some p.text := by
  obtain ⟨before, after, rfl⟩ := List.append_of_mem hp
  obtain ⟨-, hstart, hstop, hposition⟩ := h.of_split (Point.not_cutsBreak_nil _) rfl
  have hinput : input.toList = [] ++ (Piece.joined before).toList ++ p.text.toList ++
      (Piece.joined after).toList := by
    simp [← joined_eq h, Piece.joined]
  rw [hposition, Option.bind_some, Position.textOf_of_cuts hstart hstop hinput,
    String.ofList_toList]

theorem textOf_token {input : String} {t : Token} (ht : t ∈ (tokenize input).1) :
    t.position.textOf input = some t.text := by
  obtain ⟨pieces, hcuts, htokens, -⟩ := exists_cuts_tokenize input
  rw [htokens, List.mem_append, List.mem_singleton] at ht
  rcases ht with ht | rfl
  · obtain ⟨p, hp, hpt⟩ := List.mem_filterMap.mp ht
    cases p with
    | token u =>
      obtain rfl := Option.some.inj hpt
      exact textOf_piece hcuts hp
    | skipped => simp [Piece.token?] at hpt
  · have hinput : input.toList = input.toList ++ [] ++ [] := by simp
    have hend := Position.textOf_of_cuts (by simp [CutsBreak]) (by simp [CutsBreak]) hinput
    rwa [List.append_nil] at hend

/-- Lexing cuts a text into pieces that are not empty and make up the text: the texts of the tokens
but the last, and the characters of the issues, in their order. Tokens are numbered, the one at the
end alone marks the end of the input, and each piece starts where what is before it leads and is
just the text that its range covers. -/
theorem tokenize_tiles (input : String) :
    ∃ (pieces : List Piece) (words : List Token),
      String.join (pieces.map (·.text)) = input ∧ (∀ p ∈ pieces, p.text ≠ "") ∧
      pieces.filterMap Piece.token? = words ∧
      pieces.filterMap Piece.issue? = (tokenize input).2 ∧
      (tokenize input).1 = words ++ [Token.eof (Point.start.advance input) words.length] ∧
      (∀ t ∈ words, ¬ t.isEof) ∧
      (∀ (i : Nat) (t : Token), (tokenize input).1[i]? = some t → t.index = i) ∧
      (∀ before p after, pieces = before ++ p :: after → p.position?.map (·.start) =
        some (Point.start.advance (String.join (before.map (·.text))))) ∧
      (∀ p ∈ pieces, p.position?.bind (·.textOf input) = some p.text) ∧
      ∀ t ∈ (tokenize input).1, t.position.textOf input = some t.text := by
  obtain ⟨pieces, hcuts, htokens, hissues⟩ := exists_cuts_tokenize input
  have hnil := Point.not_cutsBreak_nil input.toList
  refine ⟨pieces, Piece.tokensOf pieces, joined_eq hcuts, ?_, rfl, hissues.symm, htokens,
    fun t ht => hcuts.not_isEof ht, ?_, ?_, fun p hp => textOf_piece hcuts hp,
    fun t ht => textOf_token ht⟩
  · intro p hp
    obtain ⟨before, after, rfl⟩ := List.append_of_mem hp
    have hne := (hcuts.of_split hnil rfl).1
    simpa using hne
  · intro i t ht
    rw [htokens, List.getElem?_append] at ht
    split at ht
    · simpa using hcuts.index_eq ht
    · next hi =>
      obtain ⟨hlast, rfl⟩ := List.getElem?_eq_some_iff.mp ht
      rw [List.length_singleton] at hlast
      simp only [List.getElem_singleton, Token.eof]
      omega
  · intro before p after hsplit
    obtain ⟨-, -, -, hposition⟩ := hcuts.of_split hnil hsplit
    rw [hposition]
    rfl

end Arbor.Script
