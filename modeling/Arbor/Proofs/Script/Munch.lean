import Arbor.Proofs.Script.Tiling
import Arbor.Proofs.Text.Pattern

/-!
Maximal munch. The shapes are patterns, and the first match that a pattern finds is the longest one
of its language, since no choice stands before a longer one and a loop that something else follows
cannot run past it. So a token is the longest start of what is left that any rule has, it has the
kind of the first of these rules, and a character is passed over only where no rule has a start.
-/
namespace Arbor.Script

namespace Shape

/-- The pattern of a shape. -/
def pattern : Shape → Pattern
  | .word text => .word text
  | .identifier => .seq (.one isLetter) (.many (.one isWordChar))
  | .decimal => .seq (.plus isDigit) (.seq (.one (· = '.')) (.plus isDigit))
  | .integer => .plus isDigit
  | .quoted => .seq (.one (· = '"')) (.seq (.many (.one isQuotable)) (.one (· = '"')))
  | .blanks => .plus isBlank
  | .lineBreak => .alt (.word ['\r', '\n']) (.alt (.word ['\r']) (.word ['\n']))

section Patterns
open Pattern

/-- The texts that have a shape are the language of its pattern. -/
theorem mem_language_pattern {s : Shape} {text : List Char} :
    text ∈ s.pattern.language ↔ s.Matches text := by
  cases s with
  | word w => exact mem_language_word
  | identifier =>
    simp only [pattern, Matches, mem_language_seq, mem_language_one, mem_language_many_one]
    constructor
    · rintro ⟨_, ⟨c, hc, rfl⟩, rest, hrest, rfl⟩
      exact ⟨c, rest, rfl, hc, hrest⟩
    · rintro ⟨c, rest, rfl, hc, hrest⟩
      exact ⟨[c], ⟨c, hc, rfl⟩, rest, hrest, rfl⟩
  | decimal =>
    simp only [pattern, Matches, mem_language_seq, mem_language_one, mem_language_plus,
      decide_eq_true_eq]
    constructor
    · rintro ⟨whole, ⟨hw, hwhole⟩, _, ⟨_, ⟨c, rfl, rfl⟩, part, ⟨hp, hpart⟩, rfl⟩, rfl⟩
      exact ⟨whole, part, rfl, hw, hp, hwhole, hpart⟩
    · rintro ⟨whole, part, rfl, hw, hp, hwhole, hpart⟩
      exact ⟨whole, ⟨hw, hwhole⟩, _, ⟨_, ⟨_, rfl, rfl⟩, part, ⟨hp, hpart⟩, rfl⟩, rfl⟩
  | integer => exact mem_language_plus
  | quoted =>
    simp only [pattern, Matches, mem_language_seq, mem_language_one, mem_language_many_one,
      decide_eq_true_eq]
    constructor
    · rintro ⟨_, ⟨c, rfl, rfl⟩, _, ⟨body, hbody, _, ⟨d, rfl, rfl⟩, rfl⟩, rfl⟩
      exact ⟨body, rfl, hbody⟩
    · rintro ⟨body, rfl, hbody⟩
      exact ⟨_, ⟨_, rfl, rfl⟩, _, ⟨body, hbody, _, ⟨_, rfl, rfl⟩, rfl⟩, rfl⟩
  | blanks => exact mem_language_plus
  | lineBreak => simp only [pattern, Matches, mem_language_alt, mem_language_word]

theorem greedy_pattern (s : Shape) : s.pattern.Greedy := by
  cases s with
  | word w => exact (definite_word w).greedy
  | identifier => exact definite_one.seq_greedy greedy_many_one
  | decimal =>
    refine (definite_one.seq_greedy greedy_plus).plus_seq fun c cs hc => ?_
    have hdot : c ≠ '.' := by
      rintro rfl
      exact absurd hc (by decide)
    simp [rests, hdot]
  | integer => exact greedy_plus
  | quoted =>
    refine definite_one.seq_greedy (definite_one.greedy.many_seq fun c cs hc => ?_)
    have hquote : c ≠ '"' := by
      rintro rfl
      exact absurd hc (by decide)
    simp [rests, hquote]
  | blanks => exact greedy_plus
  | lineBreak =>
    have hword := fun w => (definite_word w).greedy
    refine (hword _).alt ((hword _).alt (hword _) ?_) ?_
    · simp [mem_language_word]
    · simp [mem_language_alt, mem_language_word]

end Patterns

/-- Scanning finds what the search for the pattern finds first. -/
theorem scan_eq_firstLength (s : Shape) (cs : List Char) :
    s.scan cs = s.pattern.firstLength cs := by
  apply Nat.le_antisymm
  · rcases Nat.eq_zero_or_pos (s.scan cs) with h | h
    · exact h ▸ Nat.zero_le _
    · obtain ⟨text, rest, rfl, hlength, hmatches⟩ := exists_matches_of_scan h
      have hmem := mem_language_pattern.mpr hmatches
      exact hlength ▸ s.greedy_pattern.length_le_firstLength hmem rest
  · rcases Nat.eq_zero_or_pos (s.pattern.firstLength cs) with h | h
    · exact h ▸ Nat.zero_le _
    · obtain ⟨text, rest, rfl, hlength, hmem⟩ := Pattern.exists_of_firstLength h
      exact hlength ▸ length_le_scan (mem_language_pattern.mp hmem) rest

end Shape

/-- The texts that a rule is for. -/
def LexicalRule.language (rule : LexicalRule) : Language Char := rule.shape.pattern.language

/-- Some rule is for the text. -/
def Known (text : List Char) : Prop := ∃ rule ∈ lexicalRules, text ∈ rule.language

/-- The longest start of `rest` that is a text of a rule and not empty. -/
structure LongestStart (rest text : List Char) : Prop where
  start : text <+: rest
  ne_nil : text ≠ []
  known : Known text
  longest : ∀ other, other <+: rest → Known other → other.length ≤ text.length

/-- The rule is the first that is for the text. -/
def FirstFor (text : List Char) (rule : LexicalRule) : Prop :=
  ∃ before after, lexicalRules = before ++ rule :: after ∧ text ∈ rule.language ∧
    ∀ other ∈ before, text ∉ other.language

/-- A token is the longest text of a rule at the start of `rest` and like the first rule for it; a
character is passed over where there is no such text. -/
def Piece.Munches (rest : List Char) : Piece → Prop
  | .token t => LongestStart rest t.text.toList ∧
      ∃ rule, FirstFor t.text.toList rule ∧ t.kind = rule.kind ∧ t.channel = rule.channel
  | .skipped .. => ∀ text, text <+: rest → text ≠ [] → ¬ Known text

section Pieces
variable {text rest : List Char} {rule : LexicalRule}

theorem length_le_of_mem_language (h : text ∈ rule.language) (rest : List Char) :
    text.length ≤ rule.length (text ++ rest) :=
  Shape.length_le_scan (Shape.mem_language_pattern.mp h) rest

theorem Wins.length_le {cs : List Char} {rules : List LexicalRule} (h : Wins cs rules rule) :
    ∀ other ∈ rules, other.length cs ≤ rule.length cs := by
  obtain ⟨-, before, after, rfl, hbefore, hafter⟩ := h
  intro other hother
  rcases List.mem_append.mp hother with hother | hother
  · exact Nat.le_of_lt (hbefore other hother)
  · rcases List.mem_cons.mp hother with rfl | hother
    · exact Nat.le_refl _
    · exact hafter other hother

theorem longestStart_of_wins (hwins : Wins (text ++ rest) lexicalRules rule)
    (hlength : text.length = rule.length (text ++ rest)) (hmatches : rule.shape.Matches text) :
    LongestStart (text ++ rest) text where
  start := List.prefix_append text rest
  ne_nil := hmatches.ne_nil (shape_ne_word_nil rule (mem_lexicalRules_of_wins hwins))
  known := ⟨rule, mem_lexicalRules_of_wins hwins, Shape.mem_language_pattern.mpr hmatches⟩
  longest := by
    rintro other ⟨more, hmore⟩ ⟨r, hr, hother⟩
    rw [hlength]
    refine Nat.le_trans ?_ (hwins.length_le r hr)
    exact hmore ▸ length_le_of_mem_language hother more

theorem firstFor_of_wins (hwins : Wins (text ++ rest) lexicalRules rule)
    (hlength : text.length = rule.length (text ++ rest)) (hmatches : rule.shape.Matches text) :
    FirstFor text rule := by
  obtain ⟨-, before, after, hrules, hbefore, -⟩ := hwins
  refine ⟨before, after, hrules, Shape.mem_language_pattern.mpr hmatches, fun other hother h => ?_⟩
  have hle := length_le_of_mem_language h rest
  have hlt := hbefore other hother
  omega

theorem not_known_of_scan (hnone : ∀ rule ∈ lexicalRules, rule.length rest = 0)
    (hstart : text <+: rest) (hne : text ≠ []) : ¬ Known text := by
  rintro ⟨rule, hrule, htext⟩
  obtain ⟨more, rfl⟩ := hstart
  have hle := length_le_of_mem_language htext more
  have hpos := List.length_pos_iff.mpr hne
  have hzero := hnone rule hrule
  omega

theorem Cuts.munches {pre cs : List Char} {index : Nat} {pieces before after : List Piece}
    {p : Piece} (h : Cuts pre index cs pieces) (hp : pieces = before ++ p :: after) :
    p.Munches (Piece.joined (p :: after)).toList := by
  induction h generalizing before with
  | done => simp at hp
  | token hwins hlength hmatches _ h ih =>
    rcases before with - | ⟨q, before⟩
    · obtain ⟨rfl, rfl⟩ := List.cons.inj hp
      simp only [Piece.toList_joined_cons, h.toList_joined, Piece.text, Piece.Munches,
        String.toList_ofList]
      exact ⟨longestStart_of_wins hwins hlength hmatches, _,
        firstFor_of_wins hwins hlength hmatches, rfl, rfl⟩
    · exact ih (List.cons.inj hp).2
  | skipped hnone _ h ih =>
    rcases before with - | ⟨q, before⟩
    · obtain ⟨rfl, rfl⟩ := List.cons.inj hp
      simp only [Piece.toList_joined_cons, h.toList_joined, Piece.text, Piece.Munches,
        Char.toString_eq_singleton, String.toList_singleton]
      exact fun text hstart hne => not_known_of_scan hnone hstart hne
    · exact ih (List.cons.inj hp).2

end Pieces

/-- Lexing takes the longest text it can and the first rule for it. What is scanned for a rule is
what the search for its pattern finds first. The pieces make up the text; they are the tokens but
the last, which is the end of the input, and the characters of the issues, and each starts where
what is before it leads. A token is the longest start of what is left that is a text of any rule and
not empty, with the kind and the channel of the first rule for this text; and a character is passed
over only where no start of what is left is a text of a rule. -/
theorem tokenize_munches (input : String) :
    (∀ rule ∈ lexicalRules, ∀ cs, rule.shape.scan cs = rule.shape.pattern.firstLength cs) ∧
    ∃ (pieces : List Piece) (words : List Token),
      String.join (pieces.map (·.text)) = input ∧
      (tokenize input).1 = words ++ [Token.eof (Point.start.advance input) words.length] ∧
      words = pieces.filterMap Piece.token? ∧
      (tokenize input).2 = pieces.filterMap Piece.issue? ∧
      ∀ before p after, pieces = before ++ p :: after →
        p.position?.map (·.start) =
          some (Point.start.advance (String.join (before.map (·.text)))) ∧
        p.Munches (String.join ((p :: after).map (·.text))).toList := by
  obtain ⟨pieces, hcuts, htokens, hissues⟩ := exists_cuts_tokenize input
  refine ⟨fun rule _ cs => rule.shape.scan_eq_firstLength cs, pieces, Piece.tokensOf pieces,
    joined_eq hcuts, htokens, rfl, hissues, fun before p after hsplit =>
      ⟨?_, hcuts.munches hsplit⟩⟩
  obtain ⟨-, -, -, hposition⟩ := hcuts.of_split (Point.not_cutsBreak_nil _) hsplit
  rw [hposition]
  rfl

end Arbor.Script
