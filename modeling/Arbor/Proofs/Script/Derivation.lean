import Arbor.Proofs.Token.Cursor
import Arbor.Script.Grammar
import Mathlib.Tactic.SplitIfs

/-!
What the parser accepts. The grammar is written as derivations, with its ambiguous sum, and the
parser reports nothing exactly for the words that have one. Both sides meet in the normal form of
a sum, an operand and then further ones behind a plus each. A part of a rule that is content takes
a word of its language, and every such word when nothing behind it could be taken too; for that,
one token is enough.
-/
namespace Arbor.Script

/-- Words that `expression` derives. -/
inductive IsExpression : List TokenKind → Prop
  | sum {u v : List TokenKind} (hu : IsExpression u) (hv : IsExpression v) :
      IsExpression (u ++ plus :: v)
  | intLiteral : IsExpression [intLiteral]
  | decLiteral : IsExpression [decLiteral]
  | stringLiteral : IsExpression [stringLiteral]
  | valueReference : IsExpression [identifier]

/-- Words that `statement` derives. -/
inductive IsStatement : List TokenKind → Prop
  | setStatement {w : List TokenKind} (hw : IsExpression w) :
      IsStatement (Script.set :: identifier :: equal :: w)
  | displayStatement {w : List TokenKind} (hw : IsExpression w) : IsStatement (display :: w)
  | inputDeclaration {k : TokenKind} (hk : k = int ∨ k = dec ∨ k = string) :
      IsStatement [input, identifier, is, k]

/-- Words that `statement*` derives. -/
inductive IsProgram : List TokenKind → Prop
  | nil : IsProgram []
  | cons {u v : List TokenKind} (hu : IsStatement u) (hv : IsProgram v) : IsProgram (u ++ v)

/-- A word of `p` and then one of `q`. -/
def Sequence (p q : List TokenKind → Prop) (w : List TokenKind) : Prop :=
  ∃ u v, p u ∧ q v ∧ w = u ++ v

section Sums

/-- The kinds of tokens that are expressions by themselves. -/
def IsOperand (k : TokenKind) : Prop := IsExpression [k]

/-- Further operands of a sum, a plus before each. -/
inductive SumTail : List TokenKind → Prop
  | nil : SumTail []
  | cons {k : TokenKind} {w : List TokenKind} (hk : IsOperand k) (hw : SumTail w) :
      SumTail (plus :: k :: w)

theorem SumTail.append {u v : List TokenKind} (hu : SumTail u) (hv : SumTail v) :
    SumTail (u ++ v) := by
  induction hu with
  | nil => exact hv
  | cons hk _ ih => exact .cons hk ih

theorem IsExpression.append_sumTail {u v : List TokenKind} (hu : IsExpression u)
    (hv : SumTail v) : IsExpression (u ++ v) := by
  induction hv generalizing u with
  | nil => simpa using hu
  | @cons k w hk _ ih =>
    have hsum := ih (.sum hu hk)
    simpa using hsum

theorem isExpression_iff {w : List TokenKind} :
    IsExpression w ↔ ∃ k v, w = k :: v ∧ IsOperand k ∧ SumTail v := by
  constructor
  · intro hw
    induction hw with
    | sum _ _ ihu ihv =>
      obtain ⟨k, v, rfl, hk, hv⟩ := ihu
      obtain ⟨j, w, rfl, hj, hw⟩ := ihv
      exact ⟨k, v ++ plus :: j :: w, rfl, hk, hv.append (.cons hj hw)⟩
    | intLiteral => exact ⟨_, [], rfl, .intLiteral, .nil⟩
    | decLiteral => exact ⟨_, [], rfl, .decLiteral, .nil⟩
    | stringLiteral => exact ⟨_, [], rfl, .stringLiteral, .nil⟩
    | valueReference => exact ⟨_, [], rfl, .valueReference, .nil⟩
  · rintro ⟨k, v, rfl, hk, hv⟩
    exact hk.append_sumTail hv

theorem isOperand_iff {k : TokenKind} :
    IsOperand k ↔ k = intLiteral ∨ k = decLiteral ∨ k = stringLiteral ∨ k = identifier := by
  constructor
  · intro hk
    unfold IsOperand at hk
    generalize hw : [k] = w at hk
    cases hk with
    | sum hu _ =>
      -- a sum is longer than its left part, which is not empty
      obtain ⟨j, v, rfl, -, -⟩ := isExpression_iff.mp hu
      simp at hw
    | intLiteral => simp_all
    | decLiteral => simp_all
    | stringLiteral => simp_all
    | valueReference => simp_all
  · rintro (rfl | rfl | rfl | rfl)
    · exact .intLiteral
    · exact .decLiteral
    · exact .stringLiteral
    · exact .valueReference

theorem isSome_operandRule?_iff {t : Token} : (operandRule? t).isSome ↔ IsOperand t.kind := by
  rw [isOperand_iff]
  unfold operandRule?
  split_ifs <;> simp_all

end Sums

def kindsOf (ts : List Token) : List TokenKind := ts.map (·.kind)

/-- Tokens that do not go on with a sum. -/
def EndsSum (ts : List Token) : Prop := ∀ t ∈ ts.head?, t.kind ≠ plus

/-- A part of a rule that takes the words of `words`, all of them where `follow` holds of what is
behind, and otherwise reports something. -/
structure Accepts (next : List Token → Match) (words : List TokenKind → Prop)
    (follow : List Token → Prop) : Prop where
  fits ts : (next ts).issues = [] → (next ts).fits
  sound ts : (next ts).issues = [] → ∃ taken, words (kindsOf taken) ∧ taken ++ (next ts).rest = ts
  complete taken rest : words (kindsOf taken) → follow rest →
    (next (taken ++ rest)).issues = [] ∧ (next (taken ++ rest)).rest = rest

section Parts
variable (source : String) (last : Token)

theorem issues_mismatch_ne_nil (expected : String) (ts : List Token) :
    (mismatch last expected ts).issues ≠ [] := by
  simp [mismatch]

theorem accepts_expectAny (kinds : List TokenKind) (expected : String) :
    Accepts (expectAny last kinds expected) (fun w => ∃ k ∈ kinds, w = [k]) fun _ => True where
  fits ts h := by
    unfold expectAny at h ⊢
    split at h
    · exact absurd h (issues_mismatch_ne_nil _ _ _)
    · split at h
      · next hk => simp [hk]
      · exact absurd h (issues_mismatch_ne_nil _ _ _)
  sound ts h := by
    unfold expectAny at h ⊢
    split at h
    · exact absurd h (issues_mismatch_ne_nil _ _ _)
    · next t rest =>
      split at h
      · next hk => exact ⟨[t], ⟨t.kind, hk, rfl⟩, by simp [hk]⟩
      · exact absurd h (issues_mismatch_ne_nil _ _ _)
  complete taken rest := by
    rintro ⟨k, hk, hw⟩ -
    obtain ⟨t, rfl, rfl⟩ := List.map_eq_singleton_iff.mp hw
    simp [expectAny, hk]

theorem accepts_expect (kind : TokenKind) :
    Accepts (expect last kind) (· = [kind]) fun _ => True := by
  have h := accepts_expectAny last [kind] kind.name
  simp only [List.mem_singleton, exists_eq_left] at h
  exact h

theorem Accepts.andThen {first next : List Token → Match} {p q : List TokenKind → Prop}
    {follow : List Token → Prop} (hf : Accepts first p fun _ => True) (hn : Accepts next q follow) :
    Accepts (fun ts => (first ts).andThen next) (Sequence p q) follow where
  fits ts h := by
    by_cases hfit : (first ts).fits
    · simp only [Match.andThen, hfit, if_true] at h ⊢
      exact hn.fits _ (List.append_eq_nil_iff.mp h).2
    · simp only [Match.andThen, hfit] at h
      exact absurd (hf.fits ts h) hfit
  sound ts h := by
    by_cases hfit : (first ts).fits
    · simp only [Match.andThen, hfit, if_true] at h ⊢
      obtain ⟨h₁, h₂⟩ := List.append_eq_nil_iff.mp h
      obtain ⟨s, hs, hts⟩ := hf.sound ts h₁
      obtain ⟨t, ht, hrest⟩ := hn.sound _ h₂
      refine ⟨s ++ t, ⟨_, _, hs, ht, List.map_append⟩, ?_⟩
      rw [List.append_assoc, hrest, hts]
    · simp only [Match.andThen, hfit] at h
      exact absurd (hf.fits ts h) hfit
  complete taken rest := by
    rintro ⟨a, b, ha, hb, hab⟩ hrest
    obtain ⟨s, t, rfl, rfl, rfl⟩ := List.map_eq_append_iff.mp hab
    obtain ⟨h₁, h₂⟩ := hf.complete s (t ++ rest) ha trivial
    obtain ⟨h₃, h₄⟩ := hn.complete t rest hb hrest
    have hfit := hf.fits _ h₁
    simp [Match.andThen, hfit, h₁, h₂, h₃, h₄]

theorem sumFrom_sound (left : ParseNode) (ts : List Token)
    (h : (sumFrom source last left ts).2.1 = []) :
    ∃ taken, SumTail (kindsOf taken) ∧ taken ++ (sumFrom source last left ts).2.2 = ts := by
  fun_induction sumFrom source last left ts with
  | case1 => exact ⟨[], .nil, rfl⟩
  | case2 => exact absurd h (issues_mismatch_ne_nil _ _ _)
  | case3 => exact ⟨[], .nil, rfl⟩
  | case4 left t u rest ht rule hu ih =>
    obtain ⟨taken, htaken, hrest⟩ := ih h
    have hop := isSome_operandRule?_iff.mp (Option.isSome_of_mem hu)
    refine ⟨t :: u :: taken, ?_, by simp [hrest]⟩
    have htail := SumTail.cons hop htaken
    simpa [kindsOf, ht] using htail
  | case5 => exact absurd h (issues_mismatch_ne_nil _ _ _)
  | case6 => exact ⟨[], .nil, rfl⟩

theorem sumFrom_eq_of_endsSum {rest : List Token} (hrest : EndsSum rest) (left : ParseNode) :
    sumFrom source last left rest = (left, [], rest) := by
  match rest with
  | [] => rfl
  | [t] => simp [sumFrom, hrest t rfl]
  | t :: u :: rest => simp [sumFrom, hrest t rfl]

theorem sumFrom_complete {w : List TokenKind} (hw : SumTail w) {taken rest : List Token}
    (htaken : kindsOf taken = w) (hrest : EndsSum rest) (left : ParseNode) :
    (sumFrom source last left (taken ++ rest)).2 = ([], rest) := by
  induction hw generalizing taken left with
  | nil =>
    obtain rfl := List.map_eq_nil_iff.mp htaken
    rw [List.nil_append, sumFrom_eq_of_endsSum source last hrest]
  | cons hk _ ih =>
    obtain ⟨t, _, rfl, ht, htail⟩ := List.map_eq_cons_iff.mp htaken
    obtain ⟨u, taken, rfl, rfl, hw⟩ := List.map_eq_cons_iff.mp htail
    obtain ⟨rule, hrule⟩ := Option.isSome_iff_exists.mp (isSome_operandRule?_iff.mpr hk)
    simp only [List.cons_append, sumFrom, ht, if_true, hrule]
    exact ih hw _

theorem accepts_expectExpression :
    Accepts (expectExpression source last) IsExpression EndsSum where
  fits ts h := by
    unfold expectExpression at h ⊢
    split at h
    · rfl
    · exact absurd h (issues_mismatch_ne_nil _ _ _)
  sound ts h := by
    unfold expectExpression at h ⊢
    split at h
    · next n issues rest he =>
      obtain _ | ⟨t, ts⟩ := ts
      · simp [expression] at he
      obtain ⟨rule, hrule, he⟩ := Option.map_eq_some_iff.mp he
      obtain ⟨taken, htaken, hrest⟩ := sumFrom_sound source last _ _ (by rw [he]; exact h)
      have hop := isSome_operandRule?_iff.mp (Option.isSome_of_mem hrule)
      rw [he] at hrest
      refine ⟨t :: taken, isExpression_iff.mpr ⟨_, _, rfl, hop, htaken⟩, ?_⟩
      simpa using hrest
    · exact absurd h (issues_mismatch_ne_nil _ _ _)
  complete taken rest hw hrest := by
    obtain ⟨k, v, hkinds, hk, hv⟩ := isExpression_iff.mp hw
    obtain ⟨t, taken, rfl, rfl, hv'⟩ := List.map_eq_cons_iff.mp hkinds
    obtain ⟨rule, hrule⟩ := Option.isSome_iff_exists.mp (isSome_operandRule?_iff.mpr hk)
    have hsum := sumFrom_complete source last hv hv' hrest (operand source rule t)
    simp [expectExpression, expression, hrule, hsum]

end Parts

section Statements
variable (source : String) (last : Token)

theorem startsStatement_iff {t : Token} :
    startsStatement t ↔ t.kind = Script.set ∨ t.kind = display ∨ t.kind = input := by
  simp [startsStatement, or_assoc]

theorem statement_of_set {t : Token} (hk : t.kind = Script.set) (ts : List Token) :
    statement source last (t :: ts) = afterKeyword source Rule.setStatement t
      (((expect last identifier ts).andThen (expect last equal)).andThen
        (expectExpression source last)) := by
  simp only [statement, hk, if_true]

theorem statement_of_display {t : Token} (hk : t.kind = display) (ts : List Token) :
    statement source last (t :: ts) = afterKeyword source Rule.displayStatement t
      (expectExpression source last ts) := by
  have hset : display ≠ Script.set := by decide
  simp only [statement, hk, hset, if_false, if_true]

theorem statement_of_input {t : Token} (hk : t.kind = input) (ts : List Token) :
    statement source last (t :: ts) = afterKeyword source Rule.inputDeclaration t
      (((expect last identifier ts).andThen (expect last is)).andThen
        (expectAny last typeKeywords "\x7bint, dec, string\x7d")) := by
  have hset : input ≠ Script.set := by decide
  have hdisplay : input ≠ display := by decide
  simp only [statement, hk, hset, hdisplay, if_false, if_true]

/-- The rules of statements. -/
def statementRules : List RuleKind :=
  [Rule.setStatement, Rule.displayStatement, Rule.inputDeclaration]

/-- The kinds of tokens that parts of statements ask for. -/
def partKinds : List (List TokenKind) := [[identifier], [equal], [is], typeKeywords]

/-- What holds of the parts of statements, and of parts one behind the other, holds of what follows
the keyword of a statement. -/
theorem exists_part_of_keyword {P : (List Token → Match) → Prop}
    (hany : ∀ kinds ∈ partKinds, ∀ expected, P (expectAny last kinds expected))
    (hexpression : P (expectExpression source last))
    (hthen : ∀ {first next}, P first → P next → P fun ts => (first ts).andThen next)
    {t : Token} (ht : startsStatement t) :
    ∃ rule ∈ statementRules, ∃ next, P next ∧
      ∀ ts, statement source last (t :: ts) = afterKeyword source rule t (next ts) := by
  have hname := hany [identifier] (by simp [partKinds]) identifier.name
  rcases startsStatement_iff.mp ht with hk | hk | hk
  · have hequal := hany [equal] (by simp [partKinds]) equal.name
    exact ⟨_, by decide, _, hthen (hthen hname hequal) hexpression,
      fun ts => statement_of_set source last hk ts⟩
  · exact ⟨_, by decide, _, hexpression, fun ts => statement_of_display source last hk ts⟩
  · have his := hany [is] (by simp [partKinds]) is.name
    have htype := hany typeKeywords (by simp [partKinds])
    exact ⟨_, by decide, _, hthen (hthen hname his) (htype _),
      fun ts => statement_of_input source last hk ts⟩

theorem Accepts.congr {next : List Token → Match} {p q : List TokenKind → Prop}
    {follow : List Token → Prop} (h : Accepts next p follow) (hpq : ∀ w, p w ↔ q w) :
    Accepts next q follow := by
  obtain rfl : p = q := funext fun w => propext (hpq w)
  exact h

theorem Accepts.of_follow {next : List Token → Match} {p : List TokenKind → Prop}
    (h : Accepts next p fun _ => True) (follow : List Token → Prop) : Accepts next p follow where
  fits := h.fits
  sound := h.sound
  complete taken rest hw _ := h.complete taken rest hw trivial

theorem isStatement_cons_iff {k : TokenKind} {w : List TokenKind} :
    IsStatement (k :: w) ↔
      k = Script.set ∧ (∃ v, IsExpression v ∧ w = identifier :: equal :: v) ∨
      k = display ∧ IsExpression w ∨
      k = input ∧ ∃ j, (j = int ∨ j = dec ∨ j = string) ∧ w = [identifier, is, j] := by
  constructor
  · intro h
    generalize hkw : k :: w = s at h
    cases h with
    | setStatement hv => grind
    | displayStatement hw => grind
    | inputDeclaration hj => grind
  · rintro (⟨rfl, v, hv, rfl⟩ | ⟨rfl, hw⟩ | ⟨rfl, j, hj, rfl⟩)
    · exact .setStatement hv
    · exact .displayStatement hw
    · exact .inputDeclaration hj

/-- What follows the keyword of a statement is matched by one part. -/
theorem exists_accepts_of_startsStatement {t : Token} (ht : startsStatement t) :
    ∃ next, Accepts next (fun w => IsStatement (t.kind :: w)) EndsSum ∧
      ∀ ts, (statement source last (t :: ts)).2 = ((next ts).issues, (next ts).rest) := by
  rcases startsStatement_iff.mp ht with hk | hk | hk
  · have h := ((accepts_expect last identifier).andThen (accepts_expect last equal)).andThen
      (accepts_expectExpression source last)
    refine ⟨_, h.congr fun w => ?_, fun ts => ?_⟩
    · simp [isStatement_cons_iff, hk, Sequence, Script.set, display, input]
    · rw [statement_of_set source last hk]
      rfl
  · have h := accepts_expectExpression source last
    refine ⟨_, h.congr fun w => ?_, fun ts => ?_⟩
    · simp [isStatement_cons_iff, hk, Script.set, display, input]
    · rw [statement_of_display source last hk]
      rfl
  · have h := ((accepts_expect last identifier).andThen (accepts_expect last is)).andThen
      (accepts_expectAny last typeKeywords "\x7bint, dec, string\x7d")
    refine ⟨_, (h.congr fun w => ?_).of_follow EndsSum, fun ts => ?_⟩
    · simp [isStatement_cons_iff, hk, Sequence, Script.set, display, input, typeKeywords]
    · rw [statement_of_input source last hk]
      rfl

theorem IsStatement.exists_cons {w : List TokenKind} (hw : IsStatement w) :
    ∃ k v, w = k :: v ∧ (k = Script.set ∨ k = display ∨ k = input) := by
  cases hw with
  | setStatement => exact ⟨_, _, rfl, .inl rfl⟩
  | displayStatement => exact ⟨_, _, rfl, .inr (.inl rfl)⟩
  | inputDeclaration => exact ⟨_, _, rfl, .inr (.inr rfl)⟩

/-- The tokens of a program start with a statement, whose first token starts one. -/
theorem IsProgram.exists_statement {t : Token} {ts : List Token}
    (h : IsProgram (kindsOf (t :: ts))) : startsStatement t ∧ ∃ taken rest, ts = taken ++ rest ∧
      IsStatement (t.kind :: kindsOf taken) ∧ IsProgram (kindsOf rest) := by
  generalize hw : kindsOf (t :: ts) = w at h
  cases h with
  | nil => simp [kindsOf] at hw
  | @cons u v hu hv =>
    obtain ⟨k, u, rfl, hk⟩ := hu.exists_cons
    obtain ⟨rfl, hts⟩ := List.cons.inj hw
    obtain ⟨taken, rest, rfl, rfl, rfl⟩ := List.map_eq_append_iff.mp hts
    exact ⟨startsStatement_iff.mpr hk, taken, rest, rfl, hu, hv⟩

theorem IsProgram.endsSum {ts : List Token} (h : IsProgram (kindsOf ts)) : EndsSum ts := by
  intro t ht hplus
  obtain ⟨rest, rfl⟩ := List.head?_eq_some_iff.mp ht
  have hstart := h.exists_statement.1
  simp [startsStatement, hplus, plus, Script.set, display, input] at hstart

theorem issues_statements_eq_nil_iff {fuel : Nat} {ts : List Token} (hfuel : ts.length ≤ fuel) :
    (statements source last fuel ts).2.1 = [] ↔ IsProgram (kindsOf ts) := by
  induction fuel generalizing ts with
  | zero =>
    obtain rfl := List.length_eq_zero_iff.mp (Nat.le_zero.mp hfuel)
    exact ⟨fun _ => .nil, fun _ => rfl⟩
  | succ fuel ih =>
    obtain _ | ⟨t, ts⟩ := ts
    · exact ⟨fun _ => .nil, fun _ => rfl⟩
    simp only [List.length_cons, Nat.add_le_add_iff_right] at hfuel
    constructor
    · intro h
      by_cases ht : startsStatement t
      · obtain ⟨next, hnext, heq⟩ := exists_accepts_of_startsStatement source last ht
        simp only [statements, ht, if_true, heq, List.append_eq_nil_iff] at h
        obtain ⟨taken, htaken, hrest⟩ := hnext.sound ts h.1
        -- the statement takes a token, so the fuel that is left is enough for what is left
        have hlen : (next ts).rest.length ≤ fuel := by
          have := congrArg List.length hrest
          rw [List.length_append] at this
          omega
        have hprogram := (ih hlen).mp h.2
        have hcons := IsProgram.cons htaken hprogram
        rw [← hrest]
        simpa [kindsOf] using hcons
      · simp [statements, ht] at h
    · intro h
      obtain ⟨ht, taken, rest, rfl, htaken, hrest⟩ := h.exists_statement
      obtain ⟨next, hnext, heq⟩ := exists_accepts_of_startsStatement source last ht
      obtain ⟨hissues, hleft⟩ := hnext.complete taken rest htaken hrest.endsSum
      have hlen : rest.length ≤ fuel := by
        rw [List.length_append] at hfuel
        omega
      have hmore := (ih hlen).mpr hrest
      simp [statements, ht, heq, hissues, hleft, hmore]

end Statements

theorem pending_ofTokens (source : String) (tokens : List Token) :
    (TokenStream.ofTokens source tokens).pending =
      (tokens.filter (·.isDefault)).takeWhile (!·.isEof) := by
  simp [TokenStream.pending, TokenStream.ofTokens, TokenStream.skipHidden, filter_drop_hiddenRun]

/-- The parser is content with a stream exactly if the kinds of its visible tokens before the end
of the input derive from the grammar. -/
theorem issues_parseRule_eq_nil_iff_isProgram (source : String) (tokens : List Token) :
    (parseRule "compilationUnit" (.ofTokens source tokens)).issues = [] ↔
      IsProgram (((tokens.filter (·.isDefault)).takeWhile (!·.isEof)).map (·.kind)) := by
  rw [← pending_ofTokens source]
  simp only [parseRule, if_true, compilationUnit]
  exact issues_statements_eq_nil_iff source _ (Nat.le_refl _)

end Arbor.Script
