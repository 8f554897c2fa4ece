import Arbor.Token.Stream

/-!
The cursor of a token stream. Taking tokens one after the other gives those on the default channel,
up to the end of the input, which is given again from then on. All of it is read off the tokens that
are still ahead of the cursor: a step drops the first of them, unless it is the end.
-/
namespace Arbor

namespace Script
open TokenStream

theorem filter_drop_hiddenRun (tokens : List Token) :
    (tokens.drop (TokenStream.hiddenRun tokens)).filter (·.isDefault) =
      tokens.filter (·.isDefault) := by
  induction tokens with
  | nil => rfl
  | cons t rest ih =>
    by_cases ht : t.isDefault
    · simp [TokenStream.hiddenRun, ht]
    · simpa [TokenStream.hiddenRun, ht] using ih

/-- The cursor is on the default channel or behind all tokens. -/
def OnDefault (s : TokenStream) : Prop := ∀ t ∈ s.current?, t.isDefault

theorem current?_eq_head? (s : TokenStream) : s.current? = (s.tokens.drop s.cursor).head? := by
  rw [current?, List.head?_drop]

theorem isDefault_of_head?_drop (tokens : List Token) :
    ∀ t ∈ (tokens.drop (hiddenRun tokens)).head?, t.isDefault := by
  induction tokens with
  | nil => simp [hiddenRun]
  | cons u rest ih =>
    by_cases hu : u.isDefault
    · simp [hiddenRun, hu]
    · simpa [hiddenRun, hu] using ih

theorem onDefault_skipHidden (s : TokenStream) : OnDefault s.skipHidden := by
  intro t ht
  rw [current?_eq_head?, skipHidden, ← List.drop_drop] at ht
  exact isDefault_of_head?_drop _ t ht

end Script

namespace TokenStream
open Script

/-- The tokens that advancing still has before it, the end of the input among them. -/
def ahead (s : TokenStream) : List Token := (s.tokens.drop s.cursor).filter (·.isDefault)

@[simp] theorem ahead_skipHidden (s : TokenStream) : s.skipHidden.ahead = s.ahead := by
  rw [ahead, ahead, skipHidden, ← List.drop_drop, filter_drop_hiddenRun]

theorem ahead_ofTokens (source : String) (tokens : List Token) :
    (ofTokens source tokens).ahead = tokens.filter (·.isDefault) := by
  rw [ofTokens, ahead_skipHidden]
  rfl

/-- Advancing drops a token in front of the end of the input, and stays there. -/
theorem ahead_advance {s : TokenStream} (h : OnDefault s) :
    s.advance.2.ahead = match s.ahead with
      | [] => []
      | t :: rest => if t.isEof then t :: rest else rest := by
  cases hdrop : s.tokens.drop s.cursor with
  | nil =>
    have hcurrent : s.current? = none := by rw [current?_eq_head?, hdrop, List.head?_nil]
    simp [advance, hcurrent, ahead, hdrop]
  | cons t rest =>
    have hcurrent : s.current? = some t := by rw [current?_eq_head?, hdrop, List.head?_cons]
    have ht : t.isDefault := h t hcurrent
    have hahead : s.ahead = t :: rest.filter (·.isDefault) := by
      rw [ahead, hdrop, List.filter_cons_of_pos ht]
    by_cases heof : t.isEof
    · simp [advance, hcurrent, hahead, heof]
    · have hrest : s.tokens.drop (s.cursor + 1) = rest := by
        rw [← List.tail_drop, hdrop, List.tail_cons]
      have hnext : s.advance.2 = skipHidden { s with cursor := s.cursor + 1 } := by
        simp [advance, hcurrent, heof]
      rw [hnext, ahead_skipHidden, hahead, ahead, hrest]
      simp [heof]

theorem onDefault_advance {s : TokenStream} (h : OnDefault s) : OnDefault s.advance.2 := by
  unfold advance
  split
  · exact h
  · split
    · exact h
    · exact onDefault_skipHidden _

section Visiting
variable {s : TokenStream} {t : Token} {tokens : List Token}

/-- A stream of these tokens whose cursor is on one of them or right behind the last. -/
structure Stands (tokens : List Token) (s : TokenStream) : Prop where
  same : s.tokens = tokens
  within : s.cursor ≤ tokens.length
  onDefault : OnDefault s

theorem hiddenRun_le_length (tokens : List Token) : hiddenRun tokens ≤ tokens.length := by
  induction tokens with
  | nil => exact Nat.le_refl 0
  | cons t rest ih =>
    rw [hiddenRun, List.length_cons]
    split
    · exact Nat.zero_le _
    · exact Nat.succ_le_succ ih

theorem stands_skipHidden (hsame : s.tokens = tokens) (hwithin : s.cursor ≤ tokens.length) :
    s.skipHidden.Stands tokens where
  same := hsame
  within := by
    have hrun := hiddenRun_le_length (s.tokens.drop s.cursor)
    rw [List.length_drop, hsame] at hrun
    show s.cursor + hiddenRun (s.tokens.drop s.cursor) ≤ tokens.length
    rw [hsame]
    omega
  onDefault := onDefault_skipHidden s

theorem stands_ofTokens (source : String) (tokens : List Token) :
    (ofTokens source tokens).Stands tokens :=
  stands_skipHidden rfl (Nat.zero_le _)

theorem Stands.advance (h : s.Stands tokens) : s.advance.2.Stands tokens := by
  unfold TokenStream.advance
  split
  · exact h
  · next t hcurrent =>
    split
    · exact h
    · have hlt : s.cursor < s.tokens.length := (List.getElem?_eq_some_iff.mp hcurrent).1
      exact stands_skipHidden h.same (h.same ▸ hlt)

theorem Stands.advanceBy (h : s.Stands tokens) (n : Nat) : (s.advanceBy n).Stands tokens := by
  induction n generalizing s with
  | zero => exact h
  | succ n ih => exact ih h.advance

/-- A stream stands at the first token that is ahead. -/
theorem current?_eq_head?_ahead (h : OnDefault s) : s.current? = s.ahead.head? := by
  rw [current?_eq_head?, ahead]
  cases hdrop : s.tokens.drop s.cursor with
  | nil => rfl
  | cons t rest =>
    have hcurrent : s.current? = some t := by rw [current?_eq_head?, hdrop, List.head?_cons]
    rw [List.filter_cons_of_pos (h t hcurrent)]
    rfl

/-- Advancing gives the current token. -/
theorem advance_fst (s : TokenStream) : s.advance.1 = s.current? := by
  unfold advance
  split
  · next hcurrent => exact hcurrent.symm
  · next t hcurrent => exact hcurrent.symm

theorem lookahead?_zero (h : OnDefault s) : s.lookahead? 0 = s.current? := by
  rw [current?_eq_head?_ahead h, List.head?_eq_getElem?]
  rfl

/-- Before the end of the input a step moves everything that is seen ahead one place nearer. -/
theorem lookahead?_advance (h : OnDefault s) (hfirst : ∀ t ∈ s.lookahead? 0, ¬ t.isEof) (k : Nat) :
    s.advance.2.lookahead? k = s.lookahead? (k + 1) := by
  show s.advance.2.ahead[k]? = s.ahead[k + 1]?
  have hfirst : ∀ t ∈ s.ahead[0]?, ¬ t.isEof := hfirst
  rw [ahead_advance h]
  cases hahead : s.ahead with
  | nil => rfl
  | cons t rest =>
    have ht : ¬ t.isEof := hfirst t (by simp [hahead])
    simp [ht]

/-- What is seen `k` places ahead, with no end of the input before it, is what `k` steps lead to. -/
theorem lookahead?_eq_current? (h : s.Stands tokens) {k : Nat}
    (hbefore : ∀ i < k, ∀ t ∈ s.lookahead? i, ¬ t.isEof) :
    s.lookahead? k = (s.advanceBy k).current? := by
  induction k generalizing s with
  | zero => exact lookahead?_zero h.onDefault
  | succ k ih =>
    have hnext := lookahead?_advance h.onDefault (hbefore 0 (Nat.succ_pos k))
    rw [← hnext k, advanceBy]
    refine ih h.advance fun i hi t ht => hbefore (i + 1) (Nat.succ_lt_succ hi) t ?_
    rwa [← hnext i]

/-- At the end of the input all steps give the end. -/
theorem advance_of_end {later : List Token} (h : OnDefault s) (hahead : s.ahead = t :: later)
    (ht : t.isEof) (n : Nat) : (s.advanceBy n).advance.1 = some t := by
  induction n generalizing s with
  | zero => rw [advanceBy, advance_fst, current?_eq_head?_ahead h, hahead, List.head?_cons]
  | succ n ih =>
    refine ih (onDefault_advance h) ?_
    rw [ahead_advance h, hahead]
    exact if_pos ht

/-- The tokens before the end of the input come in order, and then the end again and again. -/
theorem advance_of_ahead {before later : List Token} (h : OnDefault s)
    (hahead : s.ahead = before ++ t :: later) (hbefore : ∀ u ∈ before, ¬ u.isEof) (ht : t.isEof)
    (n : Nat) : (s.advanceBy n).advance.1 = some (before[n]?.getD t) := by
  induction before generalizing s n with
  | nil => simpa using advance_of_end h hahead ht n
  | cons u before ih =>
    obtain ⟨hu, hbefore⟩ := List.forall_mem_cons.mp hbefore
    rw [List.cons_append] at hahead
    cases n with
    | zero => rw [advanceBy, advance_fst, current?_eq_head?_ahead h, hahead]; rfl
    | succ n =>
      have hnext : s.advance.2.ahead = before ++ t :: later := by
        rw [ahead_advance h, hahead]
        exact if_neg hu
      exact ih (onDefault_advance h) hnext hbefore n

/-- Without an end of the input all tokens ahead come in order, and then none. -/
theorem advance_of_endless (h : OnDefault s) (hends : ∀ u ∈ s.ahead, ¬ u.isEof) (n : Nat) :
    (s.advanceBy n).advance.1 = s.ahead[n]? := by
  induction n generalizing s with
  | zero =>
    rw [advanceBy, advance_fst, current?_eq_head?_ahead h, List.head?_eq_getElem?]
  | succ n ih =>
    have hnext : s.advance.2.ahead = s.ahead.tail := by
      rw [ahead_advance h]
      cases hahead : s.ahead with
      | nil => rfl
      | cons u rest => exact if_neg (hends u (by simp [hahead]))
    rw [advanceBy, ih (onDefault_advance h), hnext, List.getElem?_tail]
    exact fun u hu => hends u (List.mem_of_mem_tail (hnext ▸ hu))

end Visiting

/-- Whatever the tokens are, taking them one after the other gives those on the default channel in
their order, up to the first end of the input and then that one on and on, or, where there is no
end, all of them and then none. On the way the cursor is always on such a token or right behind all
of them, the nearest token that is seen ahead is the current one, and what is seen further ahead,
before the end of the input or at it, is what as many steps lead to. -/
theorem cursor_visits (source : String) (tokens : List Token) :
    let s := ofTokens source tokens
    let visible := tokens.filter (·.isDefault)
    (∀ before last later, visible = before ++ last :: later → (∀ t ∈ before, ¬ t.isEof) →
      last.isEof → ∀ n, (s.advanceBy n).advance.1 = some (before[n]?.getD last)) ∧
    ((∀ t ∈ visible, ¬ t.isEof) → ∀ n, (s.advanceBy n).advance.1 = visible[n]?) ∧
    ∀ n, let u := s.advanceBy n
      u.cursor ≤ tokens.length ∧
      (u.cursor = tokens.length ∨ ∃ t, tokens[u.cursor]? = some t ∧ t.isDefault) ∧
      u.lookahead? 0 = u.current? ∧
      ∀ k, (∀ i < k, ∀ t ∈ u.lookahead? i, ¬ t.isEof) →
        u.lookahead? k = (u.advanceBy k).current? := by
  intro s visible
  have hs : s.Stands tokens := stands_ofTokens source tokens
  have hahead : s.ahead = visible := ahead_ofTokens source tokens
  refine ⟨?_, ?_, fun n => ?_⟩
  · intro before last later hsplit hbefore hlast
    exact advance_of_ahead hs.onDefault (hahead.trans hsplit) hbefore hlast
  · intro hends n
    rw [← hahead] at hends ⊢
    exact advance_of_endless hs.onDefault hends n
  · intro u
    have hu : u.Stands tokens := hs.advanceBy n
    refine ⟨hu.within, ?_, lookahead?_zero hu.onDefault, fun k => lookahead?_eq_current? hu⟩
    rcases Nat.eq_or_lt_of_le hu.within with hend | hlt
    · exact .inl hend
    · refine .inr ⟨tokens[u.cursor], List.getElem?_eq_getElem hlt, hu.onDefault _ ?_⟩
      show u.tokens[u.cursor]? = some tokens[u.cursor]
      rw [hu.same, List.getElem?_eq_getElem hlt]

end TokenStream

end Arbor
