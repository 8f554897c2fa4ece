import Arbor.Proofs.Script.Verdict
import Arbor.Proofs.Script.Views

/-!
Programs that are written down and parsed. The tokens of the text are the words of the program, the
tree over them has a rule node for each part of it, and the nodes for these read as the program
again.
-/
namespace Arbor.Script
open Transformer Mapping

/-- The number that a decimal reads as. -/
def decimalOf (whole part : Digits) : Binary64 :=
  match Binary64.read (whole.text ++ "." ++ part.text) with
  | .ok x => x
  | .error _ => .nan

def Operand.view : Operand → ExpressionView
  | .integer n _ => .integer n
  | .decimal whole part => .decimal (decimalOf whole part)
  | .string t => .string t.text
  | .name x => .name x.text

def Expression.view : Expression → ExpressionView
  | .operand o => o.view
  | .sum left right => .sum left.view right.view

def Statement.view : Statement → StatementView
  | .set x value => .set x.text value.view
  | .display value => .display value.view
  | .input x type => .input x.text type.text

section Literals

theorem isDigit_of_isDigit {c : Char} (h : isDigit c) : Arbor.isDigit c := by
  simp only [isDigit, Bool.and_eq_true, decide_eq_true_eq] at h
  simp [Arbor.isDigit, digitValue?, h]

theorem read_integer {n : Nat} {text : String} (hfits : Integer64.fits n)
    (h : Shape.integer.Matches text.toList) (hvalue : digitsValue text.toList = n) :
    Integer64.read text = .ok n := by
  have hread := Integer64.read_of_digits h.1 (fun c hc => isDigit_of_isDigit (h.2 c hc))
    (by rw [hvalue]; exact hfits)
  rwa [hvalue] at hread

theorem read_decimal (whole part : Digits) :
    Binary64.read (whole.text ++ "." ++ part.text) = .ok (decimalOf whole part) := by
  obtain ⟨x, hx⟩ : ∃ x, Binary64.read (whole.text ++ "." ++ part.text) = .ok x := by
    refine Binary64.exists_read_decimal whole.text.toList part.text.toList (by simp)
      whole.isInteger.1 (fun c hc => ?_) fun c hc => ?_
    · exact isDigit_of_isDigit (whole.isInteger.2 c hc)
    · exact isDigit_of_isDigit (part.isInteger.2 c hc)
  rw [decimalOf, hx]

/-- Content without quotes is what is left between the quotes. -/
theorem unquoted_eq (t : Quotable) {text : String}
    (h : text.toList = '"' :: (t.text.toList ++ ['"'])) : unquoted text = t.text := by
  have hquote : ∀ c ∈ t.text.toList, c ≠ '"' := by
    rintro c hc rfl
    exact absurd (t.quotable _ hc) (by decide)
  rw [← String.toList_inj, unquoted, h, String.toList_ofList]
  generalize t.text.toList = body at hquote
  rw [List.dropWhile_cons_of_pos (by simp)]
  cases body with
  | nil => rfl
  | cons c body =>
    have hfront : (c :: body ++ ['"']).dropWhile (fun c => decide (c = '"')) = c :: body ++ ['"'] :=
      dropWhile_of_head (by simpa using hquote c (by simp))
    have hback : (c :: body).reverse.dropWhile (fun c => decide (c = '"')) = (c :: body).reverse :=
      dropWhile_of_head fun d hd => by
        simpa using hquote d (List.mem_reverse.mp (List.mem_of_mem_head? hd))
    rw [hfront, List.reverse_append, List.reverse_singleton, List.singleton_append,
      List.dropWhile_cons_of_pos (by simp), hback, List.reverse_reverse]

end Literals

/-- The token is a spelling of the word. -/
def Says (t : Token) (w : Word) : Prop := t.kind = w.kind ∧ w.Spells t.text.toList

section Trees
variable {source : String} {t : Token} {ts : List Token}

theorem exists_shows_operand {o : Operand} (h : Says t (.operand o)) (ht : Covers source t) :
    ∃ rule, operandRule? t = some rule ∧ Shows (operand source rule t) o.view := by
  obtain ⟨hkind, hspells⟩ := h
  have htext := text_operand ht
  cases o with
  | integer n fits =>
    refine ⟨Rule.intLiteral, by simp [operandRule?, hkind, Word.kind, Operand.kind], ?_⟩
    apply shows_intLiteral rfl
    rw [htext]
    exact read_integer fits hspells.1 hspells.2
  | decimal whole part =>
    have hchars : t.text.toList = whole.text.toList ++ '.' :: part.text.toList := hspells
    have hdecimal : t.text = whole.text ++ "." ++ part.text := by
      rw [← String.toList_inj, hchars]
      simp
    refine ⟨Rule.decLiteral, by simp [operandRule?, hkind, Word.kind, Operand.kind, intLiteral,
      decLiteral], ?_⟩
    apply shows_decLiteral rfl
    rw [htext, hdecimal]
    exact read_decimal whole part
  | string content =>
    refine ⟨Rule.stringLiteral, by simp [operandRule?, hkind, Word.kind, Operand.kind, intLiteral,
      decLiteral, stringLiteral], ?_⟩
    have hshows := shows_stringLiteral (n := operand source Rule.stringLiteral t) rfl
    rwa [htext, unquoted_eq content hspells] at hshows
  | name x =>
    have hname : t.text = x.text := String.toList_inj.mp hspells
    refine ⟨Rule.valueReference, by simp [operandRule?, hkind, Word.kind, Operand.kind, intLiteral,
      decLiteral, stringLiteral, identifier], ?_⟩
    have hshows := shows_valueReference (n := operand source Rule.valueReference t) rfl
    rwa [htext, hname] at hshows

theorem exists_shows_expression {e : Expression} (h : List.Forall₂ Says ts e.words)
    (hts : ∀ t ∈ ts, Covers source t) : ∃ n, SumTree source ts n ∧ Shows n e.view := by
  induction e generalizing ts with
  | operand o =>
    obtain ⟨t, _, ht, hnil, rfl⟩ := List.forall₂_cons_right_iff.mp h
    obtain rfl := List.forall₂_nil_right_iff.mp hnil
    obtain ⟨rule, hrule, hshows⟩ := exists_shows_operand ht (hts t (by simp))
    exact ⟨_, .operand hrule, hshows⟩
  | sum left right ih =>
    -- the last two tokens are the plus and the right operand, all before them is the left sum
    have hfront := List.forall₂_take_append _ _ _ h
    have hback := List.forall₂_drop_append _ _ _ h
    obtain ⟨p, _, hp, hback, hdrop⟩ := List.forall₂_cons_right_iff.mp hback
    obtain ⟨t, _, ht, hnil, rfl⟩ := List.forall₂_cons_right_iff.mp hback
    obtain rfl := List.forall₂_nil_right_iff.mp hnil
    have hsplit := List.take_append_drop left.words.length ts
    rw [hdrop] at hsplit
    obtain ⟨n, hn, hleft⟩ := ih hfront fun u hu => hts u (List.mem_of_mem_take hu)
    obtain ⟨rule, hrule, hright⟩ := exists_shows_operand ht (hts t (by rw [← hsplit]; simp))
    rw [← hsplit]
    exact ⟨_, .sum hn hp.1 hrule, hleft.sum hright rfl rfl⟩

theorem exists_shows_statement {s : Statement} (h : List.Forall₂ Says ts s.words)
    (hts : ∀ t ∈ ts, Covers source t) :
    ∃ n, StatementTree source ts n ∧ ShowsStatement n s.view := by
  cases s with
  | set x value =>
    obtain ⟨k, _, hk, h₁, rfl⟩ := List.forall₂_cons_right_iff.mp h
    obtain ⟨y, _, hy, h₂, rfl⟩ := List.forall₂_cons_right_iff.mp h₁
    obtain ⟨q, rest, hq, hvalue, rfl⟩ := List.forall₂_cons_right_iff.mp h₂
    obtain ⟨n, hn, hshows⟩ := exists_shows_expression hvalue fun t ht => hts t (by simp [ht])
    have hname : y.text = x.text := String.toList_inj.mp hy.2
    have hstatement := showsStatement_set (n := ruleNode source Rule.setStatement k
      [.token k, .token y, .token q, .node n]) hshows rfl (tokenOf?_set hk.1 hy.1) rfl
    rw [hname] at hstatement
    exact ⟨_, .set hk.1 hy.1 hq.1 hn, hstatement⟩
  | display value =>
    obtain ⟨k, rest, hk, hvalue, rfl⟩ := List.forall₂_cons_right_iff.mp h
    obtain ⟨n, hn, hshows⟩ := exists_shows_expression hvalue fun t ht => hts t (by simp [ht])
    exact ⟨_, .display hk.1 hn, showsStatement_display hshows rfl rfl⟩
  | input x type =>
    obtain ⟨k, _, hk, h₁, rfl⟩ := List.forall₂_cons_right_iff.mp h
    obtain ⟨y, _, hy, h₂, rfl⟩ := List.forall₂_cons_right_iff.mp h₁
    obtain ⟨i, _, hi, h₃, rfl⟩ := List.forall₂_cons_right_iff.mp h₂
    obtain ⟨z, _, hz, hnil, rfl⟩ := List.forall₂_cons_right_iff.mp h₃
    obtain rfl := List.forall₂_nil_right_iff.mp hnil
    have hname : y.text = x.text := String.toList_inj.mp hy.2
    have htype : z.text = type.text := String.toList_inj.mp hz.2
    have hkind : z.kind ∈ typeKeywords := by
      rw [hz.1]
      cases type <;> decide
    have hstatement := showsStatement_input (n := ruleNode source Rule.inputDeclaration k
      [.token k, .token y, .token i, .token z]) rfl (tokenOf?_input hk.1 hy.1)
      (findSome?_input hk.1 hy.1 hi.1 hkind)
    rw [hname, htype] at hstatement
    exact ⟨_, .input hk.1 hy.1 hi.1 hkind, hstatement⟩

/-- Tokens that spell a program have trees that show its statements. -/
theorem exists_shows_program {program : List Statement}
    (h : List.Forall₂ Says ts (program.flatMap Statement.words))
    (hts : ∀ t ∈ ts, Covers source t) :
    ∃ ns, ProgramTrees source ts ns ∧
      List.Forall₂ ShowsStatement ns (program.map Statement.view) := by
  induction program generalizing ts with
  | nil =>
    obtain rfl := List.forall₂_nil_right_iff.mp h
    exact ⟨[], .nil, .nil⟩
  | cons s program ih =>
    rw [List.flatMap_cons] at h
    have hfront := List.forall₂_take_append _ _ _ h
    have hback := List.forall₂_drop_append _ _ _ h
    obtain ⟨n, hn, hshows⟩ :=
      exists_shows_statement hfront fun t ht => hts t (List.mem_of_mem_take ht)
    obtain ⟨ns, hns, hrest⟩ := ih hback fun t ht => hts t (List.mem_of_mem_drop ht)
    have hprogram := ProgramTrees.cons hn hns
    rw [List.take_append_drop] at hprogram
    exact ⟨n :: ns, hprogram, .cons hshows hrest⟩

end Trees

theorem earlyIssues_of_programTrees {input : String} {ns : List ParseNode}
    (hlexical : (tokenize input).2 = []) (hns : ProgramTrees input (streamOf input).pending ns) :
    earlyIssues input = [] := by
  have hissues : (parseRule "compilationUnit" (streamOf input)).issues = [] := by
    have hunit := hns.compilationUnit_eq (streamOf input).endToken
    simp only [parseRule, if_true]
    exact congrArg (·.2.1) hunit
  exact (earlyIssues_eq_nil_iff input).mpr ⟨(issues_tokenize_eq_nil_iff input).mp hlexical,
    (issues_parseRule_eq_nil_iff input).mp hissues⟩

/-- Every program can be written down, and parsing any text that it is written down as reports no
lexical and no syntactic issue and gives nodes that read as the program. Lines and columns of the
text are counted without a bound. -/
theorem parse_renders (program : List Statement) (policy : ConflictPolicy) (f : Forest) :
    Renders program (render program) ∧ ∀ text, Renders program text →
      ∃ result root w', (language {}).parse text { world := ⟨.empty policy, f⟩ } =
          (.ok result, w') ∧
        (∀ i ∈ result.issues, i.kind ≠ .lexical ∧ i.kind ≠ .syntactic) ∧
        result.root = some root ∧
        viewProgram w'.world.forest root = some (program.map Statement.view) := by
  refine ⟨renders_render program, fun text h => ?_⟩
  obtain ⟨hlexical, hsays⟩ := pending_of_laid lexeme_of_spells h
  obtain ⟨ns, hns, hshows⟩ := exists_shows_program hsays covers_pending
  obtain ⟨result, w', mapped, hparse, hp⟩ := exists_parses text policy f
  refine ⟨result, f.size, w', hparse, fun i hi => ?_, hp.root, ?_⟩
  · rw [hp.issues, earlyIssues_of_programTrees hlexical hns, List.nil_append] at hi
    obtain ⟨id, -, hid⟩ := List.mem_filterMap.mp hi
    obtain ⟨message, place, rfl⟩ := eq_semantic_of_unresolved hid
    simp [Issue.semantic]
  · have hchildren : (treeOf text).childNodes = ns := by
      rw [treeOf_of_programTrees hns]
      exact nodesIn_program _ ns
    refine viewProgram_eq hp.mirrors_final ?_ (rule_treeOf text) (hchildren ▸ hshows)
    have hsize := hp.size_final
    omega

section Sample

/-- A name that begins with a keyword. -/
def sampleName : Name where
  text := "sets"
  isIdentifier := ⟨'s', ['e', 't', 's'], rfl, by decide, List.all_eq_true.mp (by decide)⟩
  unreserved := by decide

def sampleWhole : Digits := ⟨"2", by decide, List.all_eq_true.mp (by decide)⟩
def samplePart : Digits := ⟨"50", by decide, List.all_eq_true.mp (by decide)⟩

def sampleProgram : List Statement := [
  .set sampleName (.sum (.operand (.integer 7 (by decide))) (.decimal sampleWhole samplePart)),
  .display (.operand (.string ⟨"is  + 1", List.all_eq_true.mp (by decide)⟩))]

def sampleText : String := "\tset sets = 07\r\n+ 2.50 display \"is  + 1\"\n"

theorem renders_sample : Renders sampleProgram sampleText := by
  have htext : sampleText.toList = '\t' :: ("set".toList ++ ' ' :: ("sets".toList ++
      ' ' :: ("=".toList ++ ' ' :: ("07".toList ++ '\r' :: '\n' :: ("+".toList ++
      ' ' :: ("2.50".toList ++ ' ' :: ("display".toList ++ ' ' :: ("\"is  + 1\"".toList ++
      ['\n'])))))))) := by decide
  have hinteger : Shape.integer.Matches "07".toList :=
    ⟨by decide, List.all_eq_true.mp (by decide)⟩
  rw [Renders, htext]
  refine .gap rfl (.word_gap rfl rfl (.word_gap rfl rfl (.word_gap rfl rfl ?_)))
  refine .word_gap ⟨hinteger, rfl⟩ rfl (.gap rfl (.word_gap rfl rfl (.word_gap rfl rfl ?_)))
  exact .word_gap rfl rfl (.word_gap rfl rfl .done)

theorem parse_sample : Renders sampleProgram sampleText ∧
    ∃ result root w', (language {}).parse sampleText { world := ⟨.empty .fail, {}⟩ } =
        (.ok result, w') ∧
      (∀ i ∈ result.issues, i.kind ≠ .lexical ∧ i.kind ≠ .syntactic) ∧
      result.root = some root ∧
      viewProgram w'.world.forest root = some [
        .set "sets" (.sum (.integer 7) (.decimal (decimalOf sampleWhole samplePart))),
        .display (.string "is  + 1")] :=
  ⟨renders_sample, (parse_renders sampleProgram .fail {}).2 sampleText renders_sample⟩

end Sample

end Arbor.Script
