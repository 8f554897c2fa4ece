import Arbor.Script.Lexis
import Mathlib.Data.List.Induction
import Mathlib.Data.List.TakeWhile

/-!
The languages of the lexical rules. Scanning a shape finds the longest start of a text that is in
the language of the shape, and the rule that wins at a place is the first of those with the longest
such start.
-/
namespace Arbor.Script

namespace Shape

/-- The texts that have a shape. -/
def Matches : Shape → List Char → Prop
  | .word text, cs => cs = text
  | .identifier, cs => ∃ c rest, cs = c :: rest ∧ isLetter c ∧ ∀ d ∈ rest, isWordChar d
  | .decimal, cs => ∃ whole part, cs = whole ++ '.' :: part ∧ whole ≠ [] ∧ part ≠ [] ∧
      (∀ c ∈ whole, isDigit c) ∧ ∀ c ∈ part, isDigit c
  | .integer, cs => cs ≠ [] ∧ ∀ c ∈ cs, isDigit c
  | .quoted, cs => ∃ body, cs = '"' :: (body ++ ['"']) ∧ ∀ c ∈ body, isQuotable c
  | .blanks, cs => cs ≠ [] ∧ ∀ c ∈ cs, isBlank c
  | .lineBreak, cs => cs = ['\r', '\n'] ∨ cs = ['\r'] ∨ cs = ['\n']

section Runs
variable {p : Char → Bool}

theorem drop_length_takeWhile (cs : List Char) :
    cs.drop (cs.takeWhile p).length = cs.dropWhile p := by
  have hsplit := List.takeWhile_append_dropWhile (p := p) (l := cs)
  calc cs.drop (cs.takeWhile p).length
      = (cs.takeWhile p ++ cs.dropWhile p).drop (cs.takeWhile p).length := by rw [hsplit]
    _ = cs.dropWhile p := List.drop_left

theorem takeWhile_append_cons {us : List Char} {c : Char} (hus : ∀ u ∈ us, p u) (hc : ¬ p c)
    (rest : List Char) : (us ++ c :: rest).takeWhile p = us := by
  rw [List.takeWhile_append_of_pos hus, List.takeWhile_cons_of_neg hc, List.append_nil]

theorem length_le_takeWhile {us : List Char} (hus : ∀ u ∈ us, p u) (rest : List Char) :
    us.length ≤ ((us ++ rest).takeWhile p).length := by
  rw [List.takeWhile_append_of_pos hus, List.length_append]
  exact Nat.le_add_right _ _

/-- A run of characters, taken as long as possible. -/
theorem exists_run {cs : List Char} (h : 0 < (cs.takeWhile p).length) :
    ∃ text rest, cs = text ++ rest ∧ text.length = (cs.takeWhile p).length ∧
      text ≠ [] ∧ ∀ c ∈ text, p c :=
  ⟨cs.takeWhile p, cs.dropWhile p, List.takeWhile_append_dropWhile.symm, rfl,
    List.ne_nil_of_length_pos h, fun _ hc => List.mem_takeWhile_imp hc⟩

end Runs

/-- What is scanned has the shape. -/
theorem exists_matches_of_scan {s : Shape} {cs : List Char} (h : 0 < s.scan cs) :
    ∃ text rest, cs = text ++ rest ∧ text.length = s.scan cs ∧ s.Matches text := by
  cases s with
  | word text =>
    simp only [scan] at h ⊢
    split at h
    · next hp =>
      obtain ⟨rest, rfl⟩ := List.isPrefixOf_iff_prefix.mp hp
      exact ⟨text, rest, rfl, by rw [if_pos hp], rfl⟩
    · simp at h
  | identifier =>
    cases cs with
    | nil => simp [scan] at h
    | cons c cs =>
      simp only [scan] at h ⊢
      split at h
      · next hc =>
        refine ⟨c :: cs.takeWhile isWordChar, cs.dropWhile isWordChar, ?_, by simp [hc],
          c, _, rfl, hc, fun d hd => List.mem_takeWhile_imp hd⟩
        rw [List.cons_append, List.takeWhile_append_dropWhile]
      · simp at h
  | decimal =>
    simp only [scan, drop_length_takeWhile] at h ⊢
    split at h
    · next rest hrest =>
      split at h
      · simp at h
      · next hparts =>
        have hwhole := List.takeWhile_append_dropWhile (p := isDigit) (l := cs)
        have hpart := List.takeWhile_append_dropWhile (p := isDigit) (l := rest)
        refine ⟨cs.takeWhile isDigit ++ '.' :: rest.takeWhile isDigit, rest.dropWhile isDigit,
          ?_, ?_, _, _, rfl, ?_, ?_, fun c hc => List.mem_takeWhile_imp hc,
          fun c hc => List.mem_takeWhile_imp hc⟩
        · rw [List.append_assoc, List.cons_append, hpart, ← hrest, hwhole]
        · rw [if_neg hparts, List.length_append, List.length_cons]
          omega
        · exact fun hnil => hparts (by simp [hnil])
        · exact fun hnil => hparts (by simp [hnil])
    · simp at h
  | integer => exact exists_run h
  | quoted =>
    match cs, h with
    | [], h => simp [scan] at h
    | c :: cs, h =>
      by_cases hc : c = '"'
      · subst hc
        simp only [scan, drop_length_takeWhile] at h ⊢
        split at h
        · next more hmore =>
          have hbody := List.takeWhile_append_dropWhile (p := isQuotable) (l := cs)
          refine ⟨'"' :: (cs.takeWhile isQuotable ++ ['"']), more, ?_, by simp,
            _, rfl, fun c hc => List.mem_takeWhile_imp hc⟩
          rw [List.cons_append, List.append_assoc, List.singleton_append, ← hmore, hbody]
        · simp at h
      · simp [scan, hc] at h
  | blanks => exact exists_run h
  | lineBreak =>
    rcases cs with - | ⟨c, cs⟩
    · simp [scan] at h
    · by_cases hr : c = '\r'
      · subst hr
        by_cases hn : ∃ more, cs = '\n' :: more
        · obtain ⟨more, rfl⟩ := hn
          exact ⟨['\r', '\n'], more, rfl, rfl, .inl rfl⟩
        · have hscan : scan .lineBreak ('\r' :: cs) = 1 := by
            rw [scan]
            exact fun more hcs => hn ⟨more, hcs⟩
          exact ⟨['\r'], cs, rfl, hscan.symm, .inr (.inl rfl)⟩
      · by_cases hn : c = '\n'
        · subst hn
          exact ⟨['\n'], cs, rfl, rfl, .inr (.inr rfl)⟩
        · simp [scan, hr, hn] at h

/-- No longer start of a text has the shape. -/
theorem length_le_scan {s : Shape} {text : List Char} (h : s.Matches text) (rest : List Char) :
    text.length ≤ s.scan (text ++ rest) := by
  cases s with
  | word w =>
    obtain rfl : text = w := h
    have hp : text.isPrefixOf (text ++ rest) :=
      List.isPrefixOf_iff_prefix.mpr (List.prefix_append text rest)
    simp [scan, hp]
  | identifier =>
    obtain ⟨c, us, rfl, hc, hus⟩ := h
    have hlen := length_le_takeWhile hus rest
    simp only [List.cons_append, scan, hc, if_true, List.length_cons]
    omega
  | decimal =>
    obtain ⟨whole, part, rfl, hwhole, hpart, hw, hp⟩ := h
    have hdot : ¬ isDigit '.' := by decide
    have hlen := length_le_takeWhile hp rest
    have hpos := List.length_pos_iff.mpr hpart
    have hne : whole.length ≠ 0 := by simpa using hwhole
    have hne' : ((part ++ rest).takeWhile isDigit).length ≠ 0 := by omega
    simp only [List.append_assoc, List.cons_append, scan, takeWhile_append_cons hw hdot,
      List.drop_left, hne, hne', decide_false, Bool.or_self, Bool.false_eq_true, if_false,
      List.length_append, List.length_cons]
    omega
  | integer => exact length_le_takeWhile h.2 rest
  | quoted =>
    obtain ⟨body, rfl, hbody⟩ := h
    have hquote : ¬ isQuotable '"' := by decide
    simp [scan, takeWhile_append_cons hbody hquote]
  | blanks => exact length_le_takeWhile h.2 rest
  | lineBreak =>
    rcases h with rfl | rfl | rfl
    · exact Nat.le_refl 2
    · cases rest with
      | nil => exact Nat.le_refl 1
      | cons c rest =>
        by_cases hc : c = '\n'
        · subst hc
          exact Nat.le_succ 1
        · simp [scan, hc]
    · exact Nat.le_refl 1

theorem Matches.ne_nil {s : Shape} {text : List Char} (h : s.Matches text)
    (hs : s ≠ .word []) : text ≠ [] := by
  cases s with
  | word w =>
    obtain rfl : text = w := h
    simpa using hs
  | identifier =>
    obtain ⟨c, rest, rfl, -⟩ := h
    simp
  | decimal =>
    obtain ⟨whole, part, rfl, -⟩ := h
    simp
  | integer => exact h.1
  | quoted =>
    obtain ⟨body, rfl, -⟩ := h
    simp
  | blanks => exact h.1
  | lineBreak => rcases h with rfl | rfl | rfl <;> simp

end Shape

section Longest
variable {cs : List Char} {rules : List LexicalRule} {rule : LexicalRule} {n : Nat}

def LexicalRule.length (rule : LexicalRule) (cs : List Char) : Nat := rule.shape.scan cs

/-- The rule has the longest match of all, and no rule before it has one as long. -/
def Wins (cs : List Char) (rules : List LexicalRule) (rule : LexicalRule) : Prop :=
  0 < rule.length cs ∧ ∃ before after, rules = before ++ rule :: after ∧
    (∀ r ∈ before, r.length cs < rule.length cs) ∧ ∀ r ∈ after, r.length cs ≤ rule.length cs

def bestLength (best : Option (LexicalRule × Nat)) : Nat := (best.map (·.2)).getD 0

theorem better_eq (best : Option (LexicalRule × Nat)) (r : LexicalRule) :
    better cs best r =
      if bestLength best < r.length cs then some (r, r.length cs) else best := rfl

theorem length_le_bestLength (rules : List LexicalRule) :
    ∀ r ∈ rules, r.length cs ≤ bestLength (rules.foldl (better cs) none) := by
  induction rules using List.reverseRecOn with
  | nil => simp
  | append_singleton rules last ih =>
    intro r hr
    rw [List.foldl_append, List.foldl_cons, List.foldl_nil, better_eq]
    split
    · next hlt =>
      rcases List.mem_append.mp hr with hr | hr
      · exact Nat.le_of_lt (Nat.lt_of_le_of_lt (ih r hr) hlt)
      · obtain rfl := List.mem_singleton.mp hr
        exact Nat.le_refl _
    · next hge =>
      rcases List.mem_append.mp hr with hr | hr
      · exact ih r hr
      · obtain rfl := List.mem_singleton.mp hr
        omega

theorem foldl_better_eq_none (h : rules.foldl (better cs) none = none) :
    ∀ r ∈ rules, r.length cs = 0 := by
  intro r hr
  have hle : r.length cs ≤ bestLength (rules.foldl (better cs) none) :=
    length_le_bestLength rules r hr
  rw [h] at hle
  exact Nat.le_zero.mp hle

theorem wins_of_foldl_better (h : rules.foldl (better cs) none = some (rule, n)) :
    Wins cs rules rule ∧ n = rule.length cs := by
  induction rules using List.reverseRecOn with
  | nil => simp at h
  | append_singleton rules last ih =>
    rw [List.foldl_append, List.foldl_cons, List.foldl_nil, better_eq] at h
    split at h
    · next hlt =>
      obtain ⟨rfl, rfl⟩ : last = rule ∧ last.length cs = n := by simpa using h
      refine ⟨⟨by omega, rules, [], rfl, fun r hr => ?_, by simp⟩, rfl⟩
      exact Nat.lt_of_le_of_lt (length_le_bestLength rules r hr) hlt
    · next hge =>
      obtain ⟨⟨hpos, before, after, rfl, hbefore, hafter⟩, rfl⟩ := ih h
      have hlast : last.length cs ≤ rule.length cs := by
        rw [h] at hge
        exact Nat.not_lt.mp hge
      refine ⟨⟨hpos, before, after ++ [last], by simp, hbefore, fun r hr => ?_⟩, rfl⟩
      rcases List.mem_append.mp hr with hr | hr
      · exact hafter r hr
      · exact List.mem_singleton.mp hr ▸ hlast

theorem foldl_better_of_le {best : LexicalRule × Nat}
    (h : ∀ r ∈ rules, r.length cs ≤ best.2) : rules.foldl (better cs) (some best) = some best := by
  induction rules with
  | nil => rfl
  | cons r rules ih =>
    have hr : ¬ bestLength (some best) < r.length cs := Nat.not_lt.mpr (h r (by simp))
    rw [List.foldl_cons, better_eq, if_neg hr]
    exact ih fun r hr => h r (by simp [hr])

theorem foldl_better_of_wins (h : Wins cs rules rule) :
    rules.foldl (better cs) none = some (rule, rule.length cs) := by
  obtain ⟨hpos, before, after, rfl, hbefore, hafter⟩ := h
  have hbest : bestLength (before.foldl (better cs) none) < rule.length cs := by
    cases hb : before.foldl (better cs) none with
    | none => exact hpos
    | some best =>
      obtain ⟨winner, n⟩ := best
      obtain ⟨⟨-, front, back, rfl, -⟩, rfl⟩ := wins_of_foldl_better hb
      exact hbefore winner (by simp)
  rw [List.foldl_append, List.foldl_cons, better_eq, if_pos hbest]
  exact foldl_better_of_le hafter

/-- The longest match is that of the rule that wins. -/
theorem longestMatch_eq_some :
    longestMatch cs = some (rule, n) ↔ Wins cs lexicalRules rule ∧ n = rule.length cs := by
  constructor
  · exact wins_of_foldl_better
  · rintro ⟨h, rfl⟩
    exact foldl_better_of_wins h

end Longest

end Arbor.Script
