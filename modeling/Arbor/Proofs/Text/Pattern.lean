import Mathlib.Computability.Language

/-!
Patterns of texts, their languages, and the search that takes of two choices the first and repeats
a loop as often as it can before it goes back. The search finds all starts of a text that are in the
language and none else. Which of them it finds first is a matter of how the pattern is written; it
is the longest one where no choice stands before a longer one and loops are over single characters.
-/
namespace Arbor
open Computability

inductive Pattern where
  | empty
  | one (p : Char → Bool)
  | seq (first second : Pattern)
  | alt (first second : Pattern)
  | many (each : Pattern)

namespace Pattern

def plus (p : Char → Bool) : Pattern := .seq (.one p) (.many (.one p))

def word : List Char → Pattern
  | [] => .empty
  | c :: text => .seq (.one (· = c)) (word text)

/-- The texts that a pattern describes. -/
def language : Pattern → Language Char
  | empty => 1
  | one p => {text | ∃ c, p c ∧ text = [c]}
  | seq a b => a.language * b.language
  | alt a b => a.language + b.language
  | many a => a.language∗

/-- What rounds of a loop may leave of a text, more rounds before fewer. A round that takes nothing
is none. -/
def loop (round : List Char → List (List Char)) : Nat → List Char → List (List Char)
  | 0, cs => [cs]
  | fuel + 1, cs => ((round cs).filter (·.length < cs.length)).flatMap (loop round fuel) ++ [cs]

/-- What a match may leave of a text, in the order in which the search tries it. Each round of a
loop takes a character at least, so the length of the text is fuel enough. -/
def rests : Pattern → List Char → List (List Char)
  | empty, cs => [cs]
  | one _, [] => []
  | one p, c :: cs => if p c then [cs] else []
  | seq a b, cs => (a.rests cs).flatMap b.rests
  | alt a b, cs => a.rests cs ++ b.rests cs
  | many a, cs => loop a.rests cs.length cs

/-- The length of the match that is found first; zero if there is none. -/
def firstLength (p : Pattern) (cs : List Char) : Nat :=
  ((p.rests cs).head?.map (cs.length - ·.length)).getD 0

section Language
variable {a b : Pattern} {p : Char → Bool} {text : List Char}

theorem mem_language_one : text ∈ (one p).language ↔ ∃ c, p c ∧ text = [c] := Iff.rfl

theorem mem_language_seq :
    text ∈ (seq a b).language ↔ ∃ u ∈ a.language, ∃ v ∈ b.language, u ++ v = text :=
  Language.mem_mul

theorem mem_language_alt : text ∈ (alt a b).language ↔ text ∈ a.language ∨ text ∈ b.language :=
  Language.mem_add _ _ _

theorem mem_language_many_one : text ∈ (many (one p)).language ↔ ∀ c ∈ text, p c := by
  constructor
  · intro h
    obtain ⟨parts, rfl, hparts⟩ := Language.mem_kstar.mp h
    intro c hc
    obtain ⟨part, hpart, hc⟩ := List.mem_flatten.mp hc
    obtain ⟨d, hd, rfl⟩ := hparts part hpart
    rwa [List.mem_singleton.mp hc]
  · intro h
    have hparts : text = (text.map fun c => [c]).flatten := (List.flatMap_singleton' text).symm
    refine Language.mem_kstar.mpr ⟨_, hparts, fun part hpart => ?_⟩
    obtain ⟨c, hc, rfl⟩ := List.mem_map.mp hpart
    exact ⟨c, h c hc, rfl⟩

theorem mem_language_plus : text ∈ (plus p).language ↔ text ≠ [] ∧ ∀ c ∈ text, p c := by
  simp only [plus, mem_language_seq, mem_language_one, mem_language_many_one]
  constructor
  · rintro ⟨u, ⟨c, hc, rfl⟩, v, hv, rfl⟩
    exact ⟨by simp, List.forall_mem_cons.mpr ⟨hc, hv⟩⟩
  · rintro ⟨hne, h⟩
    obtain ⟨c, v, rfl⟩ := List.exists_cons_of_ne_nil hne
    obtain ⟨hc, hv⟩ := List.forall_mem_cons.mp h
    exact ⟨[c], ⟨c, hc, rfl⟩, v, hv, rfl⟩

theorem mem_language_word {w : List Char} : text ∈ (word w).language ↔ text = w := by
  induction w generalizing text with
  | nil => exact Language.mem_one text
  | cons c w ih => simp [word, mem_language_seq, mem_language_one, ih, eq_comm]

end Language

section Search
variable {round : List Char → List (List Char)} {a b p : Pattern} {text cs rest : List Char}

theorem mem_loop {each : Language Char}
    (hround : ∀ {cs rest}, rest ∈ round cs ↔ ∃ text ∈ each, text ++ rest = cs)
    {fuel : Nat} (hfuel : cs.length ≤ fuel) :
    rest ∈ loop round fuel cs ↔ ∃ text ∈ each∗, text ++ rest = cs := by
  induction fuel generalizing cs with
  | zero =>
    obtain rfl := List.length_eq_zero_iff.mp (Nat.le_zero.mp hfuel)
    simp [loop, Language.nil_mem_kstar]
  | succ fuel ih =>
    simp only [loop, List.mem_append, List.mem_flatMap, List.mem_filter, decide_eq_true_eq,
      List.mem_singleton]
    constructor
    · rintro (⟨next, ⟨hnext, hlt⟩, hrest⟩ | rfl)
      · obtain ⟨front, hfront, rfl⟩ := hround.mp hnext
        obtain ⟨text, htext, rfl⟩ := (ih (by omega)).mp hrest
        refine ⟨front ++ text, ?_, List.append_assoc ..⟩
        exact (mul_kstar_le_kstar : each * each∗ ≤ each∗) (Language.append_mem_mul hfront htext)
      · exact ⟨[], Language.nil_mem_kstar _, rfl⟩
    · rintro ⟨text, htext, rfl⟩
      obtain ⟨parts, rfl, hparts⟩ := Language.mem_kstar_iff_exists_nonempty.mp htext
      obtain _ | ⟨front, parts⟩ := parts
      · exact .inr rfl
      obtain ⟨⟨hfront, hne⟩, hparts⟩ := List.forall_mem_cons.mp hparts
      have hpos := List.length_pos_iff.mpr hne
      rw [List.flatten_cons, List.append_assoc] at hfuel ⊢
      have hlength : (front ++ (parts.flatten ++ rest)).length =
          front.length + (parts.flatten ++ rest).length := List.length_append
      refine .inl ⟨_, ⟨hround.mpr ⟨front, hfront, rfl⟩, by omega⟩, (ih (by omega)).mpr ?_⟩
      exact ⟨_, Language.join_mem_kstar fun part hpart => (hparts part hpart).1, rfl⟩

/-- The search tries the starts of a text that are in the language, all of them. -/
theorem mem_rests : rest ∈ p.rests cs ↔ ∃ text ∈ p.language, text ++ rest = cs := by
  induction p generalizing cs rest with
  | empty => simp [rests, language, Language.mem_one, eq_comm]
  | one p =>
    cases cs with
    | nil => simp [rests, mem_language_one]
    | cons c cs =>
      simp only [rests, mem_language_one]
      constructor
      · intro h
        split at h
        · next hc => exact ⟨[c], ⟨c, hc, rfl⟩, by simp [List.mem_singleton.mp h]⟩
        · cases h
      · rintro ⟨_, ⟨d, hd, rfl⟩, htext⟩
        obtain ⟨rfl, rfl⟩ := List.cons.inj htext
        simp [hd]
  | seq a b iha ihb =>
    simp only [rests, List.mem_flatMap, iha, ihb, mem_language_seq]
    constructor
    · rintro ⟨_, ⟨u, hu, rfl⟩, v, hv, rfl⟩
      exact ⟨u ++ v, ⟨u, hu, v, hv, rfl⟩, List.append_assoc ..⟩
    · rintro ⟨_, ⟨u, hu, v, hv, rfl⟩, rfl⟩
      exact ⟨v ++ rest, ⟨u, hu, (List.append_assoc ..).symm⟩, v, hv, rfl⟩
  | alt a b iha ihb =>
    simp only [rests, List.mem_append, iha, ihb, mem_language_alt, or_and_right, exists_or]
  | many a ih => exact mem_loop ih (Nat.le_refl _)

theorem rests_seq : (seq a b).rests cs = (a.rests cs).flatMap b.rests := rfl

theorem length_le_of_mem_rests (h : rest ∈ p.rests cs) : rest.length ≤ cs.length := by
  obtain ⟨text, -, rfl⟩ := mem_rests.mp h
  simp

end Search

/-- The search never tries a match before a longer one. -/
def Greedy (p : Pattern) : Prop := ∀ cs, (p.rests cs).Pairwise (·.length ≤ ·.length)

/-- There is one match at most. -/
def Definite (p : Pattern) : Prop := ∀ cs, (p.rests cs).length ≤ 1

section Preference
variable {round : List Char → List (List Char)} {a b : Pattern} {p : Char → Bool}

theorem Definite.greedy (h : a.Definite) : a.Greedy := by
  intro cs
  match hrests : a.rests cs, h cs with
  | [], _ => exact .nil
  | [rest], _ => exact List.pairwise_singleton _ rest

theorem definite_one : (one p).Definite
  | [] => by simp [rests]
  | c :: cs => by by_cases hc : p c <;> simp [rests, hc]

theorem Definite.rests_seq (h : a.Definite) (b : Pattern) (cs : List Char) :
    (seq a b).rests cs = [] ∨ ∃ rest, (seq a b).rests cs = b.rests rest := by
  match hrests : a.rests cs, h cs with
  | [], _ => exact .inl (by simp [rests, hrests])
  | [rest], _ => exact .inr ⟨rest, by simp [rests, hrests]⟩

theorem Definite.seq (ha : a.Definite) (hb : b.Definite) : (seq a b).Definite := by
  intro cs
  obtain h | ⟨rest, h⟩ := ha.rests_seq b cs
  · simp [h]
  · rw [h]
    exact hb rest

theorem Definite.seq_greedy (ha : a.Definite) (hb : b.Greedy) : (Pattern.seq a b).Greedy := by
  intro cs
  obtain h | ⟨rest, h⟩ := ha.rests_seq b cs
  · simp [h]
  · rw [h]
    exact hb rest

theorem definite_word (w : List Char) : (word w).Definite := by
  induction w with
  | nil => exact fun _ => Nat.le_refl 1
  | cons c w ih => exact definite_one.seq ih

theorem Greedy.alt (ha : a.Greedy) (hb : b.Greedy)
    (h : ∀ u ∈ a.language, ∀ v ∈ b.language, v.length ≤ u.length) : (Pattern.alt a b).Greedy := by
  intro cs
  refine List.pairwise_append.mpr ⟨ha cs, hb cs, fun r hr s hs => ?_⟩
  obtain ⟨u, hu, hcs⟩ := mem_rests.mp hr
  obtain ⟨v, hv, rfl⟩ := mem_rests.mp hs
  have hle := h u hu v hv
  have hlength := congrArg List.length hcs
  rw [List.length_append, List.length_append] at hlength
  omega

theorem rests_many_one_nil : (many (one p)).rests [] = [[]] := rfl

theorem rests_many_one_cons (c : Char) (cs : List Char) :
    (many (one p)).rests (c :: cs) =
      (if p c then (many (one p)).rests cs else []) ++ [c :: cs] := by
  by_cases hc : p c <;> simp [rests, loop, hc]

/-- Loops over single characters are greedy. -/
theorem greedy_many_one : (many (one p)).Greedy := by
  intro cs
  induction cs with
  | nil => exact List.pairwise_singleton _ []
  | cons c cs ih =>
    rw [rests_many_one_cons]
    refine List.pairwise_append.mpr ⟨?_, List.pairwise_singleton _ _, fun r hr s hs => ?_⟩
    · split
      · exact ih
      · exact .nil
    · obtain rfl := List.mem_singleton.mp hs
      split at hr
      · exact Nat.le_succ_of_le (length_le_of_mem_rests hr)
      · cases hr

theorem greedy_plus : (plus p).Greedy := definite_one.seq_greedy greedy_many_one

/-- What cannot start with a character of a loop is tried at the end of the loop only. -/
theorem rests_many_seq (hb : ∀ c cs, p c → b.rests (c :: cs) = []) (cs : List Char) :
    (seq (many (one p)) b).rests cs = b.rests (cs.dropWhile p) := by
  induction cs with
  | nil => simp [rests_seq, rests_many_one_nil]
  | cons c cs ih =>
    have hloop : (seq (many (one p)) b).rests (c :: cs) =
        (if p c then (seq (many (one p)) b).rests cs else []) ++ b.rests (c :: cs) := by
      simp only [rests_seq, rests_many_one_cons, List.flatMap_append, List.flatMap_singleton]
      split <;> rfl
    by_cases hc : p c
    · simp [hloop, hc, ih, hb c cs hc]
    · simp [hloop, hc]

theorem Greedy.many_seq (h : b.Greedy) (hb : ∀ c cs, p c → b.rests (c :: cs) = []) :
    (Pattern.seq (many (one p)) b).Greedy := by
  intro cs
  rw [rests_many_seq hb]
  exact h _

theorem Greedy.plus_seq (h : b.Greedy) (hb : ∀ c cs, p c → b.rests (c :: cs) = []) :
    (Pattern.seq (plus p) b).Greedy := by
  intro cs
  have hassoc : (Pattern.seq (plus p) b).rests cs =
      (Pattern.seq (one p) (.seq (many (one p)) b)).rests cs := List.flatMap_assoc
  rw [hassoc]
  exact definite_one.seq_greedy (h.many_seq hb) cs

/-- What a greedy pattern matches first is the longest start that its language has. -/
theorem Greedy.length_le_firstLength (h : a.Greedy) {text : List Char} (htext : text ∈ a.language)
    (rest : List Char) : text.length ≤ a.firstLength (text ++ rest) := by
  have hrest : rest ∈ a.rests (text ++ rest) := mem_rests.mpr ⟨text, htext, rfl⟩
  obtain ⟨first, more, hrests⟩ := List.exists_cons_of_ne_nil (List.ne_nil_of_mem hrest)
  have hsorted := h (text ++ rest)
  rw [hrests] at hrest hsorted
  have hle : first.length ≤ rest.length := by
    rcases List.mem_cons.mp hrest with rfl | hmore
    · exact Nat.le_refl _
    · exact List.rel_of_pairwise_cons hsorted hmore
  simp only [firstLength, hrests, List.head?_cons, Option.map_some, Option.getD_some,
    List.length_append]
  omega

/-- What is matched first is in the language. -/
theorem exists_of_firstLength {cs : List Char} (h : 0 < a.firstLength cs) :
    ∃ text rest, cs = text ++ rest ∧ text.length = a.firstLength cs ∧ text ∈ a.language := by
  cases hrests : a.rests cs with
  | nil => simp [firstLength, hrests] at h
  | cons rest more =>
    obtain ⟨text, htext, rfl⟩ := mem_rests.mp (hrests ▸ List.mem_cons_self)
    exact ⟨text, rest, rfl, by simp [firstLength, hrests], htext⟩

end Preference

end Pattern

end Arbor
