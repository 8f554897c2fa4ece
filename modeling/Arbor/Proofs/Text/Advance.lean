import Arbor.Proofs.Text.Offset

/-!
Reading a text in parts. Reading one part and then the next leads where reading both leads, unless
the cut between them is inside a CR LF, whose line end is then counted twice. So places are ordered
as the texts that lead to them, and the range between two such places covers the text between them.
-/
namespace Arbor

namespace Point

@[refl] protected theorem le_refl (p : Point) : p ≤ p := .inr ⟨rfl, Nat.le_refl _⟩

protected theorem le_trans {p q r : Point} (hpq : p ≤ q) (hqr : q ≤ r) : p ≤ r := by
  rw [le_def] at *
  omega

theorem advanceChars_append {a b : List Char} (p : Point) (h : ¬ CutsBreak a b) :
    p.advanceChars (a ++ b) = (p.advanceChars a).advanceChars b := by
  induction p, a using advanceChars.induct with
  | case1 p => rfl
  | case2 p rest ih =>
    have hrest : ¬ CutsBreak rest b := by
      rwa [cutsBreak_cons (by simp), cutsBreak_cons_iff (by simp)] at h
    simp only [List.cons_append, advanceChars]
    exact ih hrest
  | case3 p c rest hb ih =>
    -- a CR in front of the cut would have to be completed behind it
    have hb' : ∀ tail, c = '\r' → rest ++ b = '\n' :: tail → False := by
      intro tail hc ht
      cases rest with
      | nil => exact h (by simp_all [CutsBreak])
      | cons d more => exact hb more hc (by simpa using (List.cons.inj ht).1)
    have hrest : ¬ CutsBreak rest b := by rwa [← cutsBreak_cons_iff hb']
    rw [List.cons_append, advanceChars_cons p hb', advanceChars_cons p hb]
    exact ih hrest

/-- The place `n` lines below `p`. -/
def below (p : Point) (n : Nat) : Point := ⟨p.line + n, p.column⟩

@[simp] theorem line_below (p : Point) (n : Nat) : (p.below n).line = p.line + n := rfl

theorem nextLine_below (p : Point) (n : Nat) : (p.below n).nextLine = p.nextLine.below n := by
  simp only [below, nextLine]
  rw [Nat.add_right_comm]

theorem nextColumn_below (p : Point) (n : Nat) : (p.below n).nextColumn = p.nextColumn.below n :=
  rfl

/-- Where reading leads moves along with where it begins. -/
theorem advanceChars_below (p : Point) (n : Nat) (text : List Char) :
    (p.below n).advanceChars text = (p.advanceChars text).below n := by
  induction p, text using advanceChars.induct with
  | case1 p => rfl
  | case2 p rest ih => rw [advanceChars, advanceChars, nextLine_below, ih]
  | case3 p c rest hb ih =>
    rw [advanceChars_cons _ hb, advanceChars_cons _ hb, nextLine_below, nextColumn_below,
      ← apply_ite (below · n), ih]

/-- A CR LF that is read in two parts counts as two line ends. -/
theorem advanceChars_of_cutsBreak {a b : List Char} (p : Point) (h : CutsBreak a b) :
    (p.advanceChars a).advanceChars b = (p.advanceChars (a ++ b)).below 1 := by
  obtain ⟨a, rfl⟩ := List.getLast?_eq_some_iff.mp h.1
  obtain ⟨b, rfl⟩ := List.head?_eq_some_iff.mp h.2
  have hfront {suf : List Char} : ¬ CutsBreak a ('\r' :: suf) := by simp [CutsBreak]
  have hjoined : a ++ ['\r'] ++ '\n' :: b = a ++ '\r' :: '\n' :: b := by simp
  rw [hjoined, advanceChars_append p hfront, advanceChars_append p hfront]
  exact advanceChars_below (p.advanceChars a).nextLine 1 b

example : start.advance "a\r\nb" = ⟨2, 1⟩ ∧ (start.advance "a\r").advance "\nb" = ⟨3, 1⟩ := by
  decide

/-- Reading a part and then the other is reading both exactly where no CR LF is cut. -/
theorem advanceChars_append_iff {a b : List Char} (p : Point) :
    p.advanceChars (a ++ b) = (p.advanceChars a).advanceChars b ↔ ¬ CutsBreak a b := by
  refine ⟨fun heq hcut => ?_, advanceChars_append p⟩
  rw [advanceChars_of_cutsBreak p hcut] at heq
  have hline := congrArg line heq
  rw [line_below] at hline
  omega

/-- Reading anything leads on. -/
theorem lt_advanceChars (p : Point) {text : List Char} (h : text ≠ []) :
    p < p.advanceChars text := by
  have hline := le_advanceChars p.nextLine
  have hcolumn := le_advanceChars p.nextColumn
  simp only [le_def, lt_def, nextLine, nextColumn] at hline hcolumn ⊢
  fun_cases advanceChars p text with
  | case1 => exact absurd rfl h
  | case2 rest =>
    have := hline rest
    simp only [nextLine]
    omega
  | case3 c rest hb =>
    have := hline rest
    have := hcolumn rest
    split
    · simp only [nextLine]
      omega
    · simp only [nextColumn]
      omega

theorem advanceChars_le_append {a b : List Char} (p : Point) (h : ¬ CutsBreak a b) :
    p.advanceChars a ≤ p.advanceChars (a ++ b) := by
  rw [advanceChars_append p h]
  exact le_advanceChars _ b

theorem isValid_of_le {p q : Point} (h : p ≤ q) (hp : p.isValid) : q.isValid := by
  have hline : 1 ≤ p.line := by simpa [isValid] using hp
  rw [le_def] at h
  simp only [isValid, decide_eq_true_eq]
  omega

theorem isValid_start : start.isValid := rfl

theorem cutsBreak_append {a b c : List Char} (hb : b ≠ []) :
    CutsBreak (a ++ b) c ↔ CutsBreak b c := by
  simp [CutsBreak, List.getLast?_append_of_ne_nil a hb]

theorem cutsBreak_append_right {a b c : List Char} (hb : b ≠ []) :
    CutsBreak a (b ++ c) ↔ CutsBreak a b := by
  simp [CutsBreak, List.head?_append_of_ne_nil b hb]

end Point

namespace Position
open Point

/-- The range of a text is valid exactly if it begins at a valid place. -/
theorem isValid_ofText (p : Point) (text : String) : (ofText p text).isValid ↔ p.isValid := by
  have hle : p ≤ p.advance text := le_advanceChars p text.toList
  simp only [isValid, ofText, Bool.and_eq_true]
  exact ⟨fun h => h.1.1, fun h => ⟨⟨h, isValid_of_le hle h⟩, decide_eq_true hle⟩⟩

/-- A part of a text that is cut out at whole characters is what its range covers. -/
theorem textOf_of_cuts {a t b : List Char} (ht : ¬ CutsBreak a (t ++ b))
    (hb : ¬ CutsBreak (a ++ t) b) {input : String} (hinput : input.toList = a ++ t ++ b) :
    Position.textOf ⟨Point.start.advanceChars a, Point.start.advanceChars (a ++ t)⟩ input =
      some (String.ofList t) := by
  have hchars : Position.charsOf ⟨Point.start.advanceChars a, Point.start.advanceChars (a ++ t)⟩
      (a ++ t ++ b) = some t := charsOf_eq_some.mpr ⟨a, b, rfl, rfl, rfl, ht, hb⟩
  rw [textOf, hinput, hchars]
  rfl

end Position

/-- Reading adds up over parts exactly where no CR LF is cut, and reading anything leads on; so the
range of a text is valid if it begins at a valid place. -/
theorem advance_additive_and_strict :
    (∀ (p : Point) (a b : String),
      p.advance (a ++ b) = (p.advance a).advance b ↔ ¬ Point.CutsBreak a.toList b.toList) ∧
    (∀ (p : Point) (a : String), p < p.advance a ↔ a ≠ "") ∧
    ∀ (p : Point) (a : String), (Position.ofText p a).isValid ↔ p.isValid := by
  refine ⟨fun p a b => ?_, fun p a => ⟨?_, fun ha => ?_⟩, Position.isValid_ofText⟩
  · rw [Point.advance, String.toList_append]
    exact p.advanceChars_append_iff
  · rintro hlt rfl
    simp [Point.advance, Point.advanceChars, Point.lt_def] at hlt
  · exact p.lt_advanceChars (by simpa using ha)

end Arbor
