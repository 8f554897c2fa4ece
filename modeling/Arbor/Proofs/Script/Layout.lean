import Arbor.Proofs.Script.Parsing

/-!
Words with gaps between them. A text that some rule matches, and no rule before that one, is a token
of its own where a gap follows: among all matches only those between quotes and those of gaps hold
characters of gaps, so none reaches beyond the text. The gaps themselves are hidden.
-/
namespace Arbor.Script

/-- Characters that stand between words. -/
def isGap (c : Char) : Bool := isBlank c || c = '\r' || c = '\n'

/-- By itself the text is a visible token of this kind: a rule matches it, and none before that rule
does. -/
def Lexeme (kind : TokenKind) (text : List Char) : Prop :=
  ∃ before rule after, lexicalRules = before ++ rule :: after ∧ rule.kind = kind ∧
    rule.channel = 0 ∧ rule.shape.Matches text ∧ ∀ r ∈ before, ¬ r.shape.Matches text

/-- The text `cs` is made of the words in their order, each in one of its spellings, with gaps
around all of them and no two words side by side. -/
inductive Laid {α : Type} (Spells : α → List Char → Prop) : List α → List Char → Prop
  | done : Laid Spells [] []
  | gap {words : List α} {c : Char} {cs : List Char} (hc : isGap c) (h : Laid Spells words cs) :
      Laid Spells words (c :: cs)
  | word {w : α} {words : List α} {text rest : List Char} (hw : Spells w text)
      (hgap : ∀ c ∈ rest.head?, isGap c) (h : Laid Spells words rest) :
      Laid Spells (w :: words) (text ++ rest)

theorem Laid.word_gap {α : Type} {Spells : α → List Char → Prop} {w : α} {words : List α}
    {text rest : List Char} {c : Char} (hw : Spells w text) (hc : isGap c)
    (h : Laid Spells words rest) : Laid Spells (w :: words) (text ++ c :: rest) :=
  .word hw (by simpa using hc) (.gap hc h)

section Gaps
variable {rule : LexicalRule} {text : List Char} {c : Char}

/-- The characters that a text of the shape can begin with. -/
def Shape.begins : Shape → Char → Bool
  | .word text, c => text.head? = some c
  | .identifier, c => isLetter c
  | .decimal, c => isDigit c
  | .integer, c => isDigit c
  | .quoted, c => c = '"'
  | .blanks, c => isBlank c
  | .lineBreak, c => c = '\r' || c = '\n'

theorem Shape.Matches.begins {s : Shape} {cs : List Char} (h : s.Matches (c :: cs)) :
    s.begins c := by
  cases s with
  | word w =>
    obtain rfl : c :: cs = w := h
    simp [Shape.begins]
  | identifier =>
    obtain ⟨d, rest, hd, hletter, -⟩ := h
    obtain ⟨rfl, -⟩ := List.cons.inj hd
    exact hletter
  | decimal =>
    obtain ⟨whole, part, hsplit, hne, -, hwhole, -⟩ := h
    obtain ⟨d, more, rfl⟩ := List.exists_cons_of_ne_nil hne
    obtain ⟨rfl, -⟩ := List.cons.inj hsplit
    exact hwhole c List.mem_cons_self
  | integer => exact h.2 c List.mem_cons_self
  | quoted =>
    obtain ⟨body, hbody, -⟩ := h
    obtain ⟨rfl, -⟩ := List.cons.inj hbody
    rfl
  | blanks => exact h.2 c List.mem_cons_self
  | lineBreak =>
    rcases h with h | h | h <;> obtain ⟨rfl, -⟩ := List.cons.inj h <;> rfl

theorem isGap_iff : isGap c ↔ c = ' ' ∨ c = '\t' ∨ c = '\r' ∨ c = '\n' := by
  simp [isGap, isBlank, or_assoc]

theorem shape_of_gap (hc : isGap c) : ∀ rule ∈ lexicalRules, rule.shape.begins c →
    rule.shape = .blanks ∨ rule.shape = .lineBreak := by
  rcases isGap_iff.mp hc with rfl | rfl | rfl | rfl <;> decide

theorem shape_of_quote : ∀ rule ∈ lexicalRules, rule.shape.begins '"' →
    rule.shape = .quoted := by decide

theorem not_isGap_of_isWordChar (h : isWordChar c) : ¬ isGap c := by
  intro hc
  rcases isGap_iff.mp hc with rfl | rfl | rfl | rfl <;> exact absurd h (by decide)

theorem isWordChar_of_isDigit (h : isDigit c) : isWordChar c := by simp [isWordChar, h]

theorem isWordChar_of_isLetter (h : isLetter c) : isWordChar c := by simp [isWordChar, h]

theorem words_without_gaps : ∀ rule ∈ lexicalRules, ∀ text, rule.shape = .word text →
    ∀ c ∈ text, ¬ isGap c := by
  intro rule hrule text htext
  have hall : lexicalRules.all fun rule => match rule.shape with
      | .word text => text.all fun c => !isGap c
      | _ => true := by decide
  have h := List.all_eq_true.mp hall rule hrule
  simpa [htext] using h

/-- A match that holds a character of a gap stands between quotes or is hidden. -/
theorem quoted_or_hidden (hrule : rule ∈ lexicalRules) (h : rule.shape.Matches text) (hc : c ∈ text)
    (hgap : isGap c) : rule.shape = .quoted ∨ rule.shape = .blanks ∨ rule.shape = .lineBreak := by
  cases hs : rule.shape with
  | word w =>
    rw [hs] at h
    obtain rfl : text = w := h
    exact absurd hgap (words_without_gaps rule hrule text hs c hc)
  | identifier =>
    rw [hs] at h
    obtain ⟨d, rest, rfl, hd, hrest⟩ := h
    rcases List.mem_cons.mp hc with rfl | hc
    · exact absurd hgap (not_isGap_of_isWordChar (isWordChar_of_isLetter hd))
    · exact absurd hgap (not_isGap_of_isWordChar (hrest c hc))
  | decimal =>
    rw [hs] at h
    obtain ⟨whole, part, rfl, -, -, hwhole, hpart⟩ := h
    simp only [List.mem_append, List.mem_cons] at hc
    rcases hc with hc | rfl | hc
    · exact absurd hgap (not_isGap_of_isWordChar (isWordChar_of_isDigit (hwhole c hc)))
    · exact absurd hgap (by decide)
    · exact absurd hgap (not_isGap_of_isWordChar (isWordChar_of_isDigit (hpart c hc)))
  | integer =>
    rw [hs] at h
    exact absurd hgap (not_isGap_of_isWordChar (isWordChar_of_isDigit (h.2 c hc)))
  | quoted => exact .inl rfl
  | blanks => exact .inr (.inl rfl)
  | lineBreak => exact .inr (.inr rfl)

theorem hidden_of_shape : ∀ rule ∈ lexicalRules,
    rule.shape = .blanks ∨ rule.shape = .lineBreak → rule.channel = Token.hidden := by decide

theorem isGap_of_hidden (hs : rule.shape = .blanks ∨ rule.shape = .lineBreak)
    (h : rule.shape.Matches text) : ∀ c ∈ text, isGap c := by
  intro c hc
  rcases hs with hs | hs
  · rw [hs] at h
    simp [isGap, h.2 c hc]
  · rw [hs] at h
    rcases h with rfl | rfl | rfl <;> simp at hc
    · rcases hc with rfl | rfl <;> decide
    · exact hc ▸ by decide
    · exact hc ▸ by decide

/-- A match that begins with a character of a gap is a part of that gap. -/
theorem hidden_of_gap {cs : List Char} (hrule : rule ∈ lexicalRules)
    (h : rule.shape.Matches (c :: cs)) (hgap : isGap c) :
    rule.shape = .blanks ∨ rule.shape = .lineBreak :=
  shape_of_gap hgap rule hrule h.begins

theorem exists_matches_of_gap (hgap : isGap c) : ∃ rule ∈ lexicalRules, rule.shape.Matches [c] := by
  by_cases hc : isBlank c
  · exact ⟨⟨blank, .blanks, Token.hidden⟩, by decide, by simpa [Shape.Matches] using hc⟩
  · refine ⟨⟨newline, .lineBreak, Token.hidden⟩, by decide, ?_⟩
    simpa [isGap, hc, Shape.Matches] using hgap

end Gaps

section Words
variable {kind : TokenKind} {text rest : List Char}

theorem Lexeme.ne_nil (h : Lexeme kind text) : text ≠ [] := by
  obtain ⟨before, rule, after, hrules, -, -, hmatches, -⟩ := h
  exact hmatches.ne_nil (shape_ne_word_nil rule (by rw [hrules]; simp))

theorem Lexeme.not_isGap_head (h : Lexeme kind text) {c : Char} {cs : List Char}
    (htext : text = c :: cs) : ¬ isGap c := by
  intro hgap
  obtain ⟨before, rule, after, hrules, -, hchannel, hmatches, -⟩ := h
  have hrule : rule ∈ lexicalRules := by rw [hrules]; simp
  have hhidden := hidden_of_shape rule hrule (hidden_of_gap hrule (htext ▸ hmatches) hgap)
  rw [hchannel] at hhidden
  exact absurd hhidden (by decide)

/-- No match at the start of a word reaches beyond the gap behind it. -/
theorem Lexeme.length_le (h : Lexeme kind text) (hgap : ∀ c ∈ rest.head?, isGap c)
    {rule : LexicalRule} (hrule : rule ∈ lexicalRules) {other tail : List Char}
    (hother : rule.shape.Matches other) (hsplit : other ++ tail = text ++ rest) :
    other.length ≤ text.length := by
  by_contra hlong
  obtain ⟨more, rfl, hrest⟩ : ∃ more, other = text ++ more ∧ rest = more ++ tail := by
    rcases List.append_eq_append_iff.mp hsplit with ⟨more, rfl, -⟩ | ⟨more, rfl, hrest⟩
    · simp at hlong
    · exact ⟨more, rfl, hrest⟩
  obtain ⟨c, cs, htext⟩ := List.exists_cons_of_ne_nil h.ne_nil
  obtain ⟨g, gs, rfl⟩ : ∃ g gs, more = g :: gs :=
    List.exists_cons_of_ne_nil (by rintro rfl; simp at hlong)
  have hg : isGap g := hgap g (by rw [hrest]; rfl)
  rcases quoted_or_hidden hrule hother (by simp) hg with hs | hs
  · -- the closing quote of the word would stand inside the longer match
    rw [hs] at hother
    obtain ⟨body, hbody, hquotable⟩ := hother
    rw [htext, List.cons_append] at hbody
    obtain ⟨rfl, hends⟩ := List.cons.inj hbody
    obtain ⟨before, r, after, hrules, -, -, hmatches, -⟩ := h
    rw [htext] at hmatches
    have hquoted := shape_of_quote r (by rw [hrules]; simp) hmatches.begins
    rw [hquoted] at hmatches
    obtain ⟨inner, hinner, -⟩ := hmatches
    obtain ⟨-, rfl⟩ := List.cons.inj hinner
    have hinside : '"' ∈ body := by
      have hlast := congrArg List.dropLast hends
      rw [List.dropLast_concat, List.dropLast_append_of_ne_nil (by simp)] at hlast
      rw [← hlast]
      simp
    exact absurd (hquotable '"' hinside) (by decide)
  · have hhead := isGap_of_hidden hs hother c (by simp [htext])
    exact absurd hhead (h.not_isGap_head htext)

theorem length_le_of_lexeme (h : Lexeme kind text) (hgap : ∀ c ∈ rest.head?, isGap c)
    (rule : LexicalRule) (hrule : rule ∈ lexicalRules) :
    rule.length (text ++ rest) ≤ text.length ∧
      (rule.length (text ++ rest) = text.length → rule.shape.Matches text) := by
  rcases Nat.eq_zero_or_pos (rule.length (text ++ rest)) with hzero | hpos
  · have hne := List.length_pos_iff.mpr h.ne_nil
    omega
  · obtain ⟨other, tail, hsplit, hlength, hother⟩ := Shape.exists_matches_of_scan hpos
    have hle := h.length_le hgap hrule hother hsplit.symm
    change other.length = rule.length (text ++ rest) at hlength
    refine ⟨by omega, fun hsame => ?_⟩
    obtain ⟨rfl, -⟩ := List.append_inj hsplit (by omega)
    exact hother

/-- The rule of a word wins where the word stands, and takes just the word. -/
theorem Lexeme.exists_wins (h : Lexeme kind text) (hgap : ∀ c ∈ rest.head?, isGap c) :
    ∃ rule, Wins (text ++ rest) lexicalRules rule ∧ rule.length (text ++ rest) = text.length ∧
      rule.kind = kind ∧ rule.channel = 0 := by
  obtain ⟨before, rule, after, hrules, hkind, hchannel, hmatches, hbefore⟩ := id h
  have hlength : rule.length (text ++ rest) = text.length :=
    Nat.le_antisymm (length_le_of_lexeme h hgap rule (by rw [hrules]; simp)).1
      (Shape.length_le_scan hmatches rest)
  have hne := List.length_pos_iff.mpr h.ne_nil
  refine ⟨rule, ⟨by omega, before, after, hrules, fun r hr => ?_, fun r hr => ?_⟩, hlength, hkind,
    hchannel⟩
  · obtain ⟨hle, hsame⟩ := length_le_of_lexeme h hgap r (by rw [hrules]; simp [hr])
    have hshorter : r.length (text ++ rest) ≠ text.length := fun heq => hbefore r hr (hsame heq)
    omega
  · have hle := (length_le_of_lexeme h hgap r (by rw [hrules]; simp [hr])).1
    omega

end Words

section Lexing
variable {α : Type} {Spells : α → List Char → Prop} {kindOf : α → TokenKind}
  (hlex : ∀ w text, Spells w text → Lexeme (kindOf w) text) {words : List α}
include hlex

theorem Laid.of_cons {c : Char} {cs : List Char} (h : Laid Spells words (c :: cs))
    (hc : isGap c) : Laid Spells words cs := by
  generalize hcs : c :: cs = text at h
  cases h with
  | done => contradiction
  | gap _ h =>
    obtain ⟨-, rfl⟩ := List.cons.inj hcs
    exact h
  | @word w words text rest hw hgap h =>
    obtain ⟨d, more, rfl⟩ := List.exists_cons_of_ne_nil (hlex w text hw).ne_nil
    obtain ⟨rfl, -⟩ := List.cons.inj hcs
    exact absurd hc ((hlex w _ hw).not_isGap_head rfl)

theorem Laid.of_append {gap cs : List Char} (h : Laid Spells words (gap ++ cs))
    (hgap : ∀ c ∈ gap, isGap c) : Laid Spells words cs := by
  induction gap with
  | nil => exact h
  | cons c gap ih => exact ih (h.of_cons hlex (hgap c (by simp))) fun d hd => hgap d (by simp [hd])

/-- The visible tokens of words are these words, and no character is passed over. -/
theorem Cuts.of_laid {pre cs : List Char} {index : Nat} {pieces : List Piece}
    (h : Cuts pre index cs pieces) (hlaid : Laid Spells words cs) :
    Piece.issuesOf pieces = [] ∧
      List.Forall₂ (fun t w => t.kind = kindOf w ∧ Spells w t.text.toList)
        ((Piece.tokensOf pieces).filter (·.isDefault)) words := by
  induction h generalizing words with
  | done =>
    generalize hcs : ([] : List Char) = cs at hlaid
    cases hlaid with
    | done => exact ⟨rfl, .nil⟩
    | gap => contradiction
    | word hw =>
      obtain ⟨rfl, -⟩ := List.append_eq_nil_iff.mp hcs.symm
      exact absurd rfl (hlex _ _ hw).ne_nil
  | @token pre text rest index rule pieces hwins hlength hmatches hcut h ih =>
    have hrule := mem_lexicalRules_of_wins hwins
    obtain ⟨c, cs, rfl⟩ :=
      List.exists_cons_of_ne_nil (hmatches.ne_nil (shape_ne_word_nil rule hrule))
    by_cases hc : isGap c
    · have hs := hidden_of_gap hrule hmatches hc
      obtain ⟨hissues, htokens⟩ := ih (hlaid.of_append hlex (isGap_of_hidden hs hmatches))
      have hhidden : rule.channel ≠ 0 := by
        rw [hidden_of_shape rule hrule hs]
        decide
      exact ⟨hissues, by simpa [Token.isDefault, hhidden] using htokens⟩
    · generalize hcs : c :: cs ++ rest = whole at hlaid
      cases hlaid with
      | done => contradiction
      | gap hd =>
        obtain ⟨rfl, -⟩ := List.cons.inj hcs
        exact absurd hd hc
      | @word w words text' rest' hw hgap hlaid =>
        obtain ⟨r, hr, hword, hkind, hchannel⟩ := (hlex w text' hw).exists_wins hgap
        rw [hcs] at hwins hlength
        have hbest := (longestMatch_eq_some.mpr ⟨hwins, rfl⟩).symm.trans
          (longestMatch_eq_some.mpr ⟨hr, rfl⟩)
        obtain rfl : rule = r := (Prod.mk.inj (Option.some.inj hbest)).1
        obtain ⟨rfl, rfl⟩ := List.append_inj hcs (hlength.trans hword)
        obtain ⟨hissues, htokens⟩ := ih hlaid
        refine ⟨hissues, ?_⟩
        rw [Piece.tokensOf_token, List.filter_cons_of_pos (by simp [Token.isDefault, hchannel])]
        exact .cons ⟨hkind, by simpa using hw⟩ htokens
  | @skipped pre rest c index pieces hnone hcut h ih =>
    generalize hcs : c :: rest = whole at hlaid
    cases hlaid with
    | done => contradiction
    | gap hc =>
      obtain ⟨rfl, rfl⟩ := List.cons.inj hcs
      obtain ⟨r, hr, hmatch⟩ := exists_matches_of_gap hc
      have hle := Shape.length_le_scan hmatch rest
      have hzero := hnone r hr
      simp only [LexicalRule.length, List.length_singleton, List.singleton_append] at hle hzero
      omega
    | @word w words text' rest' hw hgap hlaid =>
      obtain ⟨r, hr, -⟩ := (hlex w text' hw).exists_wins hgap
      rw [hcs] at hnone
      exact absurd (hnone r (mem_lexicalRules_of_wins hr)) (Nat.ne_of_gt hr.1)

/-- Lexing a text that is made of words gives these words back. -/
theorem pending_of_laid {input : String} (h : Laid Spells words input.toList) :
    (tokenize input).2 = [] ∧
      List.Forall₂ (fun t w => t.kind = kindOf w ∧ Spells w t.text.toList)
        (streamOf input).pending words := by
  obtain ⟨pieces, hcuts, htokens, hissues⟩ := exists_cuts_tokenize input
  obtain ⟨taken, -, htaken, hpending, -⟩ := stream_tokenize input
  obtain ⟨rfl, -⟩ : taken = Piece.tokensOf pieces ∧ _ :=
    List.append_inj' (htaken.symm.trans htokens) rfl
  rw [hissues, streamOf, hpending]
  exact hcuts.of_laid hlex h

end Lexing

end Arbor.Script
