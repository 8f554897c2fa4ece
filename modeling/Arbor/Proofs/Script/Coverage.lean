import Arbor.Proofs.Script.Sentences
import Arbor.Proofs.Script.Spans

/-!
The tree of a compilation unit holds every token once. A marker between the statements stands for
the token that it names, since nothing else in the tree holds it; a marker inside a statement only
points at a token, which recovery then puts into the rule that was open.
-/
namespace Arbor

/-- The tokens that a child of the root stands for. -/
def ParseTree.standsFor : ParseTree → List Token
  | .token t => [t]
  | .error m => [m.token]
  | .node n => n.leaves

/-- The tokens of a tree in their order: those it holds, and those that markers right under the root
name. -/
def RuleNode.accounted (n : ParseNode) : List Token := n.children.flatMap ParseTree.standsFor

namespace TokenStream
open Script

theorem pending_eq (s : TokenStream) : s.pending = s.ahead.takeWhile (!·.isEof) := rfl

theorem endToken_eq (s : TokenStream) :
    s.endToken = (s.ahead.find? (·.isEof)).getD (Token.eof .start 0) := rfl

theorem pending_advance {s : TokenStream} (h : OnDefault s) :
    s.advance.2.pending = s.pending.drop 1 := by
  rw [pending_eq, pending_eq, ahead_advance h]
  cases s.ahead with
  | nil => rfl
  | cons t rest => by_cases heof : t.isEof <;> simp [heof]

theorem endToken_advance {s : TokenStream} (h : OnDefault s) :
    s.advance.2.endToken = s.endToken := by
  rw [endToken_eq, endToken_eq, ahead_advance h]
  cases s.ahead with
  | nil => rfl
  | cons t rest => by_cases heof : t.isEof <;> simp [heof]

/-- What a stream has before it once `taken` tokens are taken; the end of the input is not. -/
theorem advanceBy_ahead {s : TokenStream} (h : OnDefault s) (taken : Nat) :
    OnDefault (s.advanceBy taken) ∧ (s.advanceBy taken).pending = s.pending.drop taken ∧
      (s.advanceBy taken).endToken = s.endToken := by
  induction taken generalizing s with
  | zero => exact ⟨h, by simp [advanceBy], rfl⟩
  | succ taken ih =>
    obtain ⟨hon, hpending, hend⟩ := ih (onDefault_advance h)
    refine ⟨hon, ?_, ?_⟩
    · rw [advanceBy, hpending, pending_advance h, List.drop_drop, Nat.add_comm]
    · rw [advanceBy, hend, endToken_advance h]

end TokenStream

namespace Script
open ParseTree TokenStream

/-- Whatever the tokens are, the statements and the markers between them stand for each one once. -/
theorem standsFor_statements (source : String) (last : Token) {fuel : Nat} {ts : List Token}
    (hfuel : ts.length ≤ fuel) :
    (statements source last fuel ts).1.flatMap standsFor = ts := by
  induction fuel generalizing ts with
  | zero =>
    obtain rfl : ts = [] := List.length_eq_zero_iff.mp (by omega)
    rfl
  | succ fuel ih =>
    cases ts with
    | nil => rfl
    | cons t ts =>
      rw [List.length_cons] at hfuel
      by_cases ht : startsStatement t
      · have htaken := leaves_statement source last ht ts
        have hshort := length_rest_statement_le source last ht ts
        have hrest := ih (by omega : (statement source last (t :: ts)).2.2.length ≤ fuel)
        simp only [statements, ht, if_true, List.flatMap_cons, hrest]
        exact htaken
      · have hrest := ih (by omega : ts.length ≤ fuel)
        simp only [statements, ht, Bool.false_eq_true, if_false, List.flatMap_cons, hrest]
        rfl

theorem accounted_compilationUnit (source : String) (last : Token) (ts : List Token) :
    (compilationUnit source last ts).1.accounted = ts ++ [last] := by
  have hts := standsFor_statements source last (Nat.le_refl ts.length)
  rw [RuleNode.accounted, children_compilationUnit, List.flatMap_append, hts]
  rfl

/-- The parser takes every token of a stream. -/
theorem atEof_parseRule {s : TokenStream} (h : OnDefault s) :
    (parseRule "compilationUnit" s).tokens.atEof := by
  simp only [parseRule, if_true, rest_compilationUnit]
  exact atEof_leave h

/-- Parsing any tokens, from the first one or behind some that were taken before, accounts for each
visible one up to the end of the input once and in order, and then for the end itself; where the
tokens have no end, one at the start of the text stands for it. Behind that the stream is at its
end. -/
theorem accounted_parseRule (source : String) (tokens : List Token) (taken : Nat) :
    let visible := tokens.filter (·.isDefault)
    let parsed := parseRule "compilationUnit" ((TokenStream.ofTokens source tokens).advanceBy taken)
    ∃ tree, parsed.root = some tree ∧
      tree.accounted = (visible.takeWhile (!·.isEof)).drop taken ++
        [(visible.find? (·.isEof)).getD (Token.eof .start 0)] ∧
      parsed.tokens.atEof := by
  intro visible parsed
  have hnew : OnDefault (TokenStream.ofTokens source tokens) := onDefault_skipHidden _
  obtain ⟨hon, hpending, hend⟩ := advanceBy_ahead hnew taken
  rw [pending_ofTokens] at hpending
  rw [endToken_eq (ofTokens source tokens), ahead_ofTokens] at hend
  refine ⟨(compilationUnit _ _ _).1, rfl, ?_, atEof_parseRule hon⟩
  rw [accounted_compilationUnit, hpending, hend]

end Script

end Arbor
