import Arbor.Proofs.Number.Digits
import Arbor.Proofs.Script.Layout

/-!
Programs as such, apart from any text: lists of statements whose names, numbers and strings can be
written down. A program is a row of words, and each word has spellings, which are tokens of the kind
that the grammar wants there. So every program can be written down, in many ways.
-/
namespace Arbor.Script

/-- The words that are no names. -/
def keywords : List String := ["set", "display", "input", "is", "int", "dec", "string"]

structure Name where
  text : String
  isIdentifier : Shape.identifier.Matches text.toList
  unreserved : text ∉ keywords

structure Digits where
  text : String
  isInteger : Shape.integer.Matches text.toList

/-- What can stand between quotes. -/
structure Quotable where
  text : String
  quotable : ∀ c ∈ text.toList, isQuotable c

inductive Operand where
  | integer (n : Nat) (fits : Integer64.fits n)
  | decimal (whole part : Digits)
  | string (t : Quotable)
  | name (x : Name)

/-- Sums, grouped to the left. -/
inductive Expression where
  | operand (o : Operand)
  | sum (left : Expression) (right : Operand)

inductive InputType where
  | int
  | dec
  | string
deriving DecidableEq

inductive Statement where
  | set (x : Name) (value : Expression)
  | display (value : Expression)
  | input (x : Name) (type : InputType)

/-- What the tokens of a program stand for. -/
inductive Word where
  | set
  | display
  | input
  | is
  | equal
  | plus
  | type (t : InputType)
  | operand (o : Operand)

def Operand.kind : Operand → TokenKind
  | .integer _ _ => intLiteral
  | .decimal _ _ => decLiteral
  | .string _ => stringLiteral
  | .name _ => identifier

/-- Integers may have zeros in front, all else is written in one way. -/
def Operand.Spells : Operand → List Char → Prop
  | .integer n _, cs => Shape.integer.Matches cs ∧ digitsValue cs = n
  | .decimal whole part, cs => cs = whole.text.toList ++ '.' :: part.text.toList
  | .string t, cs => cs = '"' :: (t.text.toList ++ ['"'])
  | .name x, cs => cs = x.text.toList

namespace InputType

def kind : InputType → TokenKind
  | .int => Script.int
  | .dec => Script.dec
  | .string => Script.string

def text : InputType → String
  | .int => "int"
  | .dec => "dec"
  | .string => "string"

end InputType

namespace Word

def kind : Word → TokenKind
  | .set => Script.set
  | .display => Script.display
  | .input => Script.input
  | .is => Script.is
  | .equal => Script.equal
  | .plus => Script.plus
  | .type t => t.kind
  | .operand o => o.kind

def Spells : Word → List Char → Prop
  | .set, cs => cs = "set".toList
  | .display, cs => cs = "display".toList
  | .input, cs => cs = "input".toList
  | .is, cs => cs = "is".toList
  | .equal, cs => cs = "=".toList
  | .plus, cs => cs = "+".toList
  | .type t, cs => cs = t.text.toList
  | .operand o, cs => o.Spells cs

end Word

def Expression.words : Expression → List Word
  | .operand o => [.operand o]
  | .sum left right => left.words ++ [.plus, .operand right]

def Statement.words : Statement → List Word
  | .set x value => .set :: .operand (.name x) :: .equal :: value.words
  | .display value => .display :: value.words
  | .input x type => [.input, .operand (.name x), .is, .type type]

/-- The text is a way to write down the program: its words in one of their spellings each, with
blanks and line breaks between any two of them and, if one likes, at both ends. -/
def Renders (program : List Statement) (text : String) : Prop :=
  Laid Word.Spells (program.flatMap Statement.words) text.toList

section Rendering

def Operand.text : Operand → String
  | .integer n _ => n.repr
  | .decimal whole part => whole.text ++ "." ++ part.text
  | .string t => "\"" ++ t.text ++ "\""
  | .name x => x.text

def Word.text : Word → String
  | .set => "set"
  | .display => "display"
  | .input => "input"
  | .is => "is"
  | .equal => "="
  | .plus => "+"
  | .type t => t.text
  | .operand o => o.text

/-- The words of a program in one line, each with a space behind it. -/
def render (program : List Statement) : String :=
  String.ofList ((program.flatMap Statement.words).flatMap fun w => w.text.toList ++ [' '])

theorem matches_repr (n : Nat) : Shape.integer.Matches n.repr.toList := by
  rw [Nat.toList_repr]
  exact ⟨Nat.toDigits_ne_nil, fun c hc => Nat.isDigit_of_mem_toDigits (by omega) (by omega) hc⟩

theorem Word.spells_text (w : Word) : w.Spells w.text.toList := by
  cases w with
  | operand o =>
    cases o with
    | integer n fits => exact ⟨matches_repr n, digitsValue_repr n⟩
    | decimal whole part => simp [Spells, Operand.Spells, text, Operand.text]
    | string t => simp [Spells, Operand.Spells, text, Operand.text]
    | name x => rfl
  | _ => rfl

theorem laid_of_words (words : List Word) :
    Laid Word.Spells words (words.flatMap fun w => w.text.toList ++ [' ']) := by
  induction words with
  | nil => exact .done
  | cons w words ih =>
    rw [List.flatMap_cons, List.append_assoc]
    exact .word_gap w.spells_text rfl ih

theorem renders_render (program : List Statement) : Renders program (render program) := by
  rw [Renders, render, String.toList_ofList]
  exact laid_of_words _

end Rendering

section Lexemes
variable {text : List Char} {rule : LexicalRule} {i : Nat} {c : Char}

theorem exists_of_isDigit (h : isDigit c) : ∃ n < 10, c = Char.ofNat (48 + n) := by
  simp only [isDigit, Bool.and_eq_true, decide_eq_true_eq, Char.le_def, UInt32.le_iff_toNat_le] at h
  obtain ⟨hlow, hhigh⟩ : 48 ≤ c.toNat ∧ c.toNat ≤ 57 := h
  refine ⟨c.toNat - 48, by omega, ?_⟩
  rw [Nat.add_sub_cancel' hlow, Char.ofNat_toNat]

theorem shape_of_digit (hc : isDigit c) : ∀ rule ∈ lexicalRules, rule.shape.begins c →
    rule.shape = .decimal ∨ rule.shape = .integer := by
  obtain ⟨n, hn, rfl⟩ := exists_of_isDigit hc
  have hall : ∀ n < 10, ∀ rule ∈ lexicalRules, rule.shape.begins (Char.ofNat (48 + n)) →
      rule.shape = .decimal ∨ rule.shape = .integer := by decide
  exact hall n hn

theorem not_matches_of_scan {s : Shape} (h : s.scan text < text.length) : ¬ s.Matches text := by
  intro hmatches
  have hle := Shape.length_le_scan hmatches []
  rw [List.append_nil] at hle
  omega

theorem lexeme_of_getElem? (hrule : lexicalRules[i]? = some rule) (hchannel : rule.channel = 0)
    (hmatches : rule.shape.Matches text)
    (hbefore : ∀ r ∈ lexicalRules.take i, ¬ r.shape.Matches text) : Lexeme rule.kind text := by
  obtain ⟨hi, hget⟩ := List.getElem?_eq_some_iff.mp hrule
  refine ⟨lexicalRules.take i, rule, lexicalRules.drop (i + 1), ?_, rfl, hchannel, hmatches,
    hbefore⟩
  rw [← hget, ← List.drop_eq_getElem_cons hi, List.take_append_drop]

theorem lexeme_of_scan (hrule : lexicalRules[i]? = some rule) (hchannel : rule.channel = 0)
    (hmatches : rule.shape.Matches text)
    (hbefore : ∀ r ∈ lexicalRules.take i, r.shape.scan text < text.length) :
    Lexeme rule.kind text :=
  lexeme_of_getElem? hrule hchannel hmatches fun r hr => not_matches_of_scan (hbefore r hr)

theorem lexeme_name (x : Name) : Lexeme identifier x.text.toList := by
  have hwords : ∀ r ∈ lexicalRules.take 7, ∃ k ∈ keywords, r.shape = .word k.toList := by decide
  refine lexeme_of_getElem? (i := 7) rfl rfl x.isIdentifier fun r hr hmatches => ?_
  obtain ⟨k, hk, hshape⟩ := hwords r hr
  rw [hshape] at hmatches
  exact x.unreserved (String.toList_inj.mp hmatches ▸ hk)

/-- Where a text begins with a digit, only the rules of numbers are left. -/
theorem number_of_mem_take (hr : rule ∈ lexicalRules.take i) (hmatches : rule.shape.Matches text)
    {cs : List Char} (htext : text = c :: cs) (hc : isDigit c) :
    rule.shape = .decimal ∨ rule.shape = .integer := by
  subst htext
  exact shape_of_digit hc rule (List.mem_of_mem_take hr) hmatches.begins

theorem lexeme_decimal (whole part : Digits) :
    Lexeme decLiteral (whole.text.toList ++ '.' :: part.text.toList) := by
  obtain ⟨hne, hwhole⟩ := whole.isInteger
  obtain ⟨hne', hpart⟩ := part.isInteger
  refine lexeme_of_getElem? (i := 8) rfl rfl ⟨_, _, rfl, hne, hne', hwhole, hpart⟩
    fun r hr hmatches => ?_
  obtain ⟨c, cs, hcs⟩ := List.exists_cons_of_ne_nil hne
  have hnone : ∀ r ∈ lexicalRules.take 8, ¬ (r.shape = .decimal ∨ r.shape = .integer) := by decide
  refine hnone r hr (number_of_mem_take hr hmatches (by rw [hcs]; rfl) (hwhole c ?_))
  rw [hcs]
  exact List.mem_cons_self

theorem lexeme_integer (h : Shape.integer.Matches text) : Lexeme intLiteral text := by
  refine lexeme_of_getElem? (i := 9) rfl rfl h fun r hr hmatches => ?_
  obtain ⟨c, cs, rfl⟩ := List.exists_cons_of_ne_nil h.1
  have hnone : ∀ r ∈ lexicalRules.take 9, r.shape ≠ .integer := by decide
  rcases number_of_mem_take hr hmatches rfl (h.2 c List.mem_cons_self) with hs | hs
  · -- the point of a decimal is no digit
    rw [hs] at hmatches
    obtain ⟨whole, part, hsplit, -⟩ := hmatches
    have hdot := h.2 '.' (by rw [hsplit]; simp)
    exact absurd hdot (by decide)
  · exact hnone r hr hs

theorem lexeme_string (t : Quotable) : Lexeme stringLiteral ('"' :: (t.text.toList ++ ['"'])) := by
  have hnone : ∀ r ∈ lexicalRules.take 10, r.shape ≠ .quoted := by decide
  refine lexeme_of_getElem? (i := 10) rfl rfl ⟨_, rfl, t.quotable⟩ fun r hr hmatches => ?_
  exact hnone r hr (shape_of_quote r (List.mem_of_mem_take hr) hmatches.begins)

/-- Each spelling of a word is a token of its kind. -/
theorem lexeme_of_spells (w : Word) (text : List Char) (h : w.Spells text) :
    Lexeme w.kind text := by
  cases w with
  | set => exact h ▸ lexeme_of_scan (i := 0) rfl rfl rfl (by decide)
  | display => exact h ▸ lexeme_of_scan (i := 1) rfl rfl rfl (by decide)
  | input => exact h ▸ lexeme_of_scan (i := 2) rfl rfl rfl (by decide)
  | is => exact h ▸ lexeme_of_scan (i := 3) rfl rfl rfl (by decide)
  | equal => exact h ▸ lexeme_of_scan (i := 11) rfl rfl rfl (by decide)
  | plus => exact h ▸ lexeme_of_scan (i := 12) rfl rfl rfl (by decide)
  | type t =>
    cases t with
    | int => exact h ▸ lexeme_of_scan (i := 4) rfl rfl rfl (by decide)
    | dec => exact h ▸ lexeme_of_scan (i := 5) rfl rfl rfl (by decide)
    | string => exact h ▸ lexeme_of_scan (i := 6) rfl rfl rfl (by decide)
  | operand o =>
    cases o with
    | integer n fits => exact lexeme_integer h.1
    | decimal whole part => exact h ▸ lexeme_decimal whole part
    | string t => exact h ▸ lexeme_string t
    | name x => exact h ▸ lexeme_name x

end Lexemes

end Arbor.Script
