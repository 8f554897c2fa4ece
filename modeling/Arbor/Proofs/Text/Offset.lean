import Arbor.Text.Position
import Mathlib.Data.String.Basic

/-!
Places and offsets determine each other. A place lies at a byte of a text exactly when reading up to
that byte leads to the place, and the byte is not between the two characters of a CR LF. Reading
counts lines and columns from the front, finding an offset passes line ends first and columns then;
both are followed along the text from any place on.
-/
namespace Arbor

namespace Point
open String (utf8Len)

/-- The cut between the two texts falls inside a CR LF. -/
def CutsBreak (before after : List Char) : Prop :=
  before.getLast? = some '\r' ∧ after.head? = some '\n'

instance (before after : List Char) : Decidable (CutsBreak before after) :=
  inferInstanceAs (Decidable (_ ∧ _))

@[simp] theorem not_cutsBreak_nil (after : List Char) : ¬ CutsBreak [] after := by
  simp [CutsBreak]

theorem cutsBreak_cons {c : Char} {before after : List Char} (h : before ≠ []) :
    CutsBreak (c :: before) after ↔ CutsBreak before after := by
  obtain ⟨b, rest, rfl⟩ := List.exists_cons_of_ne_nil h
  simp [CutsBreak, List.getLast?_cons_cons]

/-- The place `lines` line ends and `columns` characters behind `q`. -/
def shift (q : Point) (lines columns : Nat) : Point :=
  ⟨q.line + lines, (if lines = 0 then q.column else 0) + columns⟩

/-- Passes line ends and then characters of one line. -/
def offsetFrom (lines columns : Nat) (text : List Char) : Option Nat :=
  (passLines lines text).bind fun (k, rest) => (passColumns columns rest).map (k + ·)

theorem offsetInChars_eq {p : Point} (h : p.isValid) (text : List Char) :
    p.offsetInChars text = offsetFrom (p.line - 1) p.column text := by
  simp [offsetInChars, offsetFrom, h]

@[simp] theorem offsetFrom_zero_zero (text : List Char) : offsetFrom 0 0 text = some 0 := by
  simp [offsetFrom, passLines, passColumns]

@[simp] theorem offsetFrom_succ_nil (n m : Nat) : offsetFrom (n + 1) m [] = none := by
  simp [offsetFrom, passLines]

@[simp] theorem offsetFrom_zero_nil (m : Nat) : offsetFrom 0 (m + 1) [] = none := by
  simp [offsetFrom, passLines, passColumns]

theorem offsetFrom_break (n m : Nat) (rest : List Char) :
    offsetFrom (n + 1) m ('\r' :: '\n' :: rest) = (offsetFrom n m rest).map (· + 2) := by
  simp only [offsetFrom, passLines]
  cases passLines n rest with
  | none => rfl
  | some r => cases h : passColumns m r.2 <;> simp [h]; omega

/-- A line end that no LF completes ends a line alone. -/
theorem passLines_cons {c : Char} {rest : List Char} (n : Nat)
    (hb : ∀ tail, c = '\r' → rest = '\n' :: tail → False) :
    passLines (n + 1) (c :: rest) =
      (passLines (if isLineEnd c then n else n + 1) rest).map
        fun (k, r) => (k + c.utf8Size, r) := by
  rw [passLines]
  exact hb

theorem offsetFrom_cons {c : Char} {rest : List Char} (n m : Nat)
    (hb : ∀ tail, c = '\r' → rest = '\n' :: tail → False) :
    offsetFrom (n + 1) m (c :: rest) =
      (offsetFrom (if isLineEnd c then n else n + 1) m rest).map (· + c.utf8Size) := by
  simp only [offsetFrom, passLines_cons n hb]
  cases passLines (if isLineEnd c then n else n + 1) rest with
  | none => rfl
  | some r => cases h : passColumns m r.2 <;> simp [h]; omega

theorem offsetFrom_column {c : Char} (m : Nat) (rest : List Char) :
    offsetFrom 0 (m + 1) (c :: rest) =
      if isLineEnd c then none else (offsetFrom 0 m rest).map (· + c.utf8Size) := by
  by_cases hc : isLineEnd c
  · simp [offsetFrom, passLines, passColumns, hc]
  · cases h : passColumns m rest <;> simp [offsetFrom, passLines, passColumns, hc, h]

theorem advanceChars_cons {c : Char} {rest : List Char} (q : Point)
    (hb : ∀ tail, c = '\r' → rest = '\n' :: tail → False) :
    advanceChars q (c :: rest) =
      advanceChars (if isLineEnd c then q.nextLine else q.nextColumn) rest := by
  rw [advanceChars]
  exact hb

/-- Reading never leads back. -/
theorem le_advanceChars (q : Point) (text : List Char) : q ≤ advanceChars q text := by
  induction q, text using advanceChars.induct with
  | case1 q => exact .inr ⟨rfl, Nat.le_refl _⟩
  | case2 q rest ih =>
    rw [advanceChars]
    simp only [le_def, nextLine] at ih ⊢
    omega
  | case3 q c rest hb ih =>
    rw [advanceChars_cons q hb]
    split at ih <;> simp only [le_def, nextLine, nextColumn] at ih ⊢ <;> simp_all <;> omega

theorem nextLine_shift (q : Point) (n m : Nat) : q.nextLine.shift n m = q.shift (n + 1) m := by
  simp [shift, nextLine]
  omega

theorem nextColumn_shift_zero (q : Point) (m : Nat) :
    q.nextColumn.shift 0 m = q.shift 0 (m + 1) := by
  simp [shift, nextColumn]
  omega

theorem nextColumn_shift_succ (q : Point) (n m : Nat) :
    q.nextColumn.shift (n + 1) m = q.shift (n + 1) m := by
  simp [shift, nextColumn]

/-- A character in front neither opens nor closes a cut line end, unless it is a CR before LF. -/
theorem cutsBreak_cons_iff {c : Char} {pre suf : List Char}
    (hb : ∀ tail, c = '\r' → pre ++ suf = '\n' :: tail → False) :
    CutsBreak (c :: pre) suf ↔ CutsBreak pre suf := by
  cases pre with
  | nil =>
    simp only [not_cutsBreak_nil, iff_false]
    rintro ⟨hc, hs⟩
    obtain ⟨tail, rfl⟩ := List.head?_eq_some_iff.mp hs
    exact hb tail (by simpa using hc) rfl
  | cons b rest => exact cutsBreak_cons (by simp)

/-- Where passing lines and columns ends, reading leads to the shifted place. -/
theorem exists_split_of_offsetFrom (q : Point) (text : List Char) {n m k : Nat}
    (h : offsetFrom n m text = some k) :
    ∃ pre suf, text = pre ++ suf ∧ utf8Len pre = k ∧ advanceChars q pre = q.shift n m ∧
      ¬ CutsBreak pre suf := by
  have start : ∀ (q : Point) (text : List Char) {k : Nat}, offsetFrom 0 0 text = some k →
      ∃ pre suf, text = pre ++ suf ∧ utf8Len pre = k ∧ advanceChars q pre = q.shift 0 0 ∧
        ¬ CutsBreak pre suf := fun q text k h =>
    ⟨[], text, rfl, by simpa using h, by simp [advanceChars, shift], by simp⟩
  induction q, text using advanceChars.induct generalizing n m k with
  | case1 q =>
    rcases n with - | n
    · rcases m with - | m
      · exact start q [] h
      · simp at h
    · simp at h
  | case2 q rest ih =>
    rcases n with - | n
    · rcases m with - | m
      · exact start q _ h
      · simp [offsetFrom_column, isLineEnd] at h
    · rw [offsetFrom_break] at h
      obtain ⟨k, hk, rfl⟩ := Option.map_eq_some_iff.mp h
      obtain ⟨pre, suf, rfl, rfl, ha, hc⟩ := ih hk
      refine ⟨'\r' :: '\n' :: pre, suf, rfl, ?_, ?_, ?_⟩
      · simp [Char.utf8Size]
      · rw [advanceChars, ha, nextLine_shift]
      · rw [cutsBreak_cons (by simp), cutsBreak_cons_iff (by simp)]
        exact hc
  | case3 q c rest hb ih =>
    -- The character in front is read as it is passed, whatever it is.
    have front : ∀ {n' m' k'}, offsetFrom n' m' rest = some k' →
        (if isLineEnd c then q.nextLine else q.nextColumn).shift n' m' = q.shift n m →
        k' + c.utf8Size = k →
        ∃ pre suf, c :: rest = pre ++ suf ∧ utf8Len pre = k ∧ advanceChars q pre = q.shift n m ∧
          ¬ CutsBreak pre suf := by
      intro n' m' k' hk hs hsum
      obtain ⟨pre, suf, rfl, rfl, ha, hc⟩ := ih hk
      refine ⟨c :: pre, suf, rfl, by simpa using hsum, ?_, by rwa [cutsBreak_cons_iff hb]⟩
      rw [advanceChars_cons q fun tail h₁ h₂ => hb (tail ++ suf) h₁ (by simp [h₂]), ha, hs]
    rcases n with - | n
    · rcases m with - | m
      · exact start q _ h
      · rw [offsetFrom_column] at h
        split at h
        · cases h
        · next hc =>
          obtain ⟨k', hk, hsum⟩ := Option.map_eq_some_iff.mp h
          exact front hk (by rw [if_neg hc, nextColumn_shift_zero]) hsum
    · rw [offsetFrom_cons n m hb] at h
      obtain ⟨k', hk, hsum⟩ := Option.map_eq_some_iff.mp h
      refine front hk ?_ hsum
      split
      · exact nextLine_shift q n m
      · exact nextColumn_shift_succ q n m

/-- Where reading leads to the shifted place, passing lines and columns ends. -/
theorem offsetFrom_of_advanceChars (q : Point) (pre : List Char) {n m : Nat} {suf : List Char}
    (h : advanceChars q pre = q.shift n m) (hc : ¬ CutsBreak pre suf) :
    offsetFrom n m (pre ++ suf) = some (utf8Len pre) := by
  induction q, pre using advanceChars.induct generalizing n m with
  | case1 q =>
    obtain ⟨rfl, rfl⟩ : n = 0 ∧ m = 0 := by
      simp only [advanceChars, shift] at h
      have hl := congrArg Point.line h
      have hm := congrArg Point.column h
      dsimp only at hl hm
      split at hm <;> omega
    simp
  | case2 q rest ih =>
    have hle := le_advanceChars q.nextLine rest
    rw [advanceChars] at h
    rw [h] at hle
    obtain ⟨n, rfl⟩ : ∃ n', n = n' + 1 := by
      simp only [le_def, nextLine, shift] at hle
      exact ⟨n - 1, by omega⟩
    rw [cutsBreak_cons (by simp), cutsBreak_cons_iff (by simp)] at hc
    rw [List.cons_append, List.cons_append, offsetFrom_break,
      ih (h.trans (nextLine_shift q n m).symm) hc]
    simp [Char.utf8Size]
  | case3 q c rest hb ih =>
    have hb' : ∀ tail, c = '\r' → rest ++ suf = '\n' :: tail → False := by
      intro tail hcr ht
      cases rest with
      | nil => exact hc (by simp_all [CutsBreak])
      | cons b more => exact hb more hcr (by simpa using (List.cons.inj ht).1)
    have hrest : ¬ CutsBreak rest suf := by rwa [← cutsBreak_cons_iff hb']
    rw [advanceChars_cons q hb] at h
    have hle := le_advanceChars (if isLineEnd c then q.nextLine else q.nextColumn) rest
    rw [h] at hle
    by_cases he : isLineEnd c
    · simp only [he, if_true] at h hle ih
      obtain ⟨n, rfl⟩ : ∃ n', n = n' + 1 :=
        ⟨n - 1, by simp only [le_def, nextLine, shift] at hle; omega⟩
      rw [List.cons_append, offsetFrom_cons n m hb', if_pos he,
        ih (h.trans (nextLine_shift q n m).symm) hrest]
      rfl
    · simp only [he] at h hle ih
      rcases n with - | n
      · obtain ⟨m, rfl⟩ : ∃ m', m = m' + 1 :=
          ⟨m - 1, by simp only [le_def, nextColumn, shift] at hle; simp at hle; omega⟩
        rw [List.cons_append, offsetFrom_column, if_neg he,
          ih (h.trans (nextColumn_shift_zero q m).symm) hrest]
        rfl
      · rw [List.cons_append, offsetFrom_cons n m hb', if_neg he,
          ih (h.trans (nextColumn_shift_succ q n m).symm) hrest]
        rfl

theorem offsetInChars_eq_some {p : Point} {text : List Char} {k : Nat} :
    p.offsetInChars text = some k ↔
      ∃ pre suf, text = pre ++ suf ∧ utf8Len pre = k ∧ start.advanceChars pre = p ∧
        ¬ CutsBreak pre suf := by
  have shift_start : p.isValid → start.shift (p.line - 1) p.column = p := by
    obtain ⟨line, column⟩ := p
    intro h
    have : 1 ≤ line := by simpa [isValid] using h
    simp [start, shift]
    omega
  constructor
  · intro h
    have hv : p.isValid := by
      by_contra hv
      simp [offsetInChars, hv] at h
    rw [offsetInChars_eq hv] at h
    obtain ⟨pre, suf, ht, hk, ha, hc⟩ := exists_split_of_offsetFrom start text h
    exact ⟨pre, suf, ht, hk, ha.trans (shift_start hv), hc⟩
  · rintro ⟨pre, suf, rfl, rfl, rfl, hc⟩
    have hv : (start.advanceChars pre).isValid := by
      have hle := le_def.mp (le_advanceChars start pre)
      have : start.line = 1 := rfl
      exact decide_eq_true (by omega)
    rw [offsetInChars_eq hv]
    exact offsetFrom_of_advanceChars start pre (shift_start hv).symm hc

end Point

namespace Position
open Point
open String (utf8Len)

theorem dropBytes_append (pre suf : List Char) : dropBytes (utf8Len pre) (pre ++ suf) = suf := by
  induction pre with
  | nil => simp [dropBytes]
  | cons c rest ih =>
    obtain ⟨n, hn⟩ : ∃ n, utf8Len (c :: rest) = n + 1 :=
      ⟨utf8Len (c :: rest) - 1, by have := c.utf8Size_pos; simp; omega⟩
    rw [hn, List.cons_append, dropBytes, ← hn, String.utf8Len_cons, Nat.add_sub_cancel, ih]

theorem takeBytes_append (pre suf : List Char) : takeBytes (utf8Len pre) (pre ++ suf) = pre := by
  induction pre with
  | nil => simp [takeBytes]
  | cons c rest ih =>
    obtain ⟨n, hn⟩ : ∃ n, utf8Len (c :: rest) = n + 1 :=
      ⟨utf8Len (c :: rest) - 1, by have := c.utf8Size_pos; simp; omega⟩
    rw [hn, List.cons_append, takeBytes, ← hn, String.utf8Len_cons, Nat.add_sub_cancel, ih]

/-- Of two starts of a text, the one with fewer bytes is a start of the other. -/
theorem exists_append_of_utf8Len_le {a b s t : List Char} (h : a ++ s = b ++ t)
    (hle : utf8Len a ≤ utf8Len b) : ∃ mid, b = a ++ mid ∧ s = mid ++ t := by
  rcases List.append_eq_append_iff.mp h with ⟨mid, hb, hs⟩ | ⟨mid, ha, ht⟩
  · exact ⟨mid, hb, hs⟩
  · have : mid = [] := by
      rw [ha, String.utf8Len_append] at hle
      exact String.utf8Len_eq_zero.mp (by omega)
    subst this
    exact ⟨[], by simpa using ha.symm, by simpa using ht.symm⟩

theorem charsOf_eq_some {r : Position} {code t : List Char} :
    r.charsOf code = some t ↔
      ∃ a b, code = a ++ t ++ b ∧ Point.start.advanceChars a = r.start ∧
        Point.start.advanceChars (a ++ t) = r.stop ∧ ¬ CutsBreak a (t ++ b) ∧
        ¬ CutsBreak (a ++ t) b := by
  constructor
  · intro h
    simp only [charsOf, Option.bind_eq_bind, Option.bind_eq_some_iff] at h
    obtain ⟨first, hfirst, last, hlast, h⟩ := h
    obtain ⟨a, s, hcode, rfl, ha, hca⟩ := offsetInChars_eq_some.mp hfirst
    obtain ⟨e, b, hcode', rfl, he, hce⟩ := offsetInChars_eq_some.mp hlast
    split_ifs at h with hle
    obtain ⟨mid, rfl, rfl⟩ := exists_append_of_utf8Len_le (hcode.symm.trans hcode') hle
    obtain rfl : mid = t := by
      rw [hcode, dropBytes_append, String.utf8Len_append, Nat.add_sub_cancel_left,
        takeBytes_append] at h
      exact Option.some.inj h
    exact ⟨a, b, hcode', ha, he, hca, hce⟩
  · rintro ⟨a, b, rfl, ha, he, hca, hce⟩
    have hfirst := offsetInChars_eq_some.mpr ⟨a, t ++ b, List.append_assoc a t b, rfl, ha, hca⟩
    have hlast := offsetInChars_eq_some.mpr ⟨a ++ t, b, rfl, rfl, he, hce⟩
    simp only [charsOf, hfirst, hlast, Option.bind_eq_bind, Option.bind_some]
    rw [String.utf8Len_append, if_pos (Nat.le_add_right _ _), Nat.add_sub_cancel_left,
      List.append_assoc, dropBytes_append, takeBytes_append]

end Position

/-- A place has the offset `k` exactly when reading the first `k` bytes leads to it, and a range
covers exactly the text between its ends; no end lies inside a CR LF. -/
theorem offsetIn_and_textOf_iff (code : String) :
    (∀ (p : Point) (k : Nat), p.offsetIn code = some k ↔
      ∃ pre suf : String, code = pre ++ suf ∧ pre.utf8ByteSize = k ∧ Point.start.advance pre = p ∧
        ¬ Point.CutsBreak pre.toList suf.toList) ∧
    ∀ (q : Position) (t : String), q.textOf code = some t ↔
      ∃ a b : String, code = a ++ t ++ b ∧ Point.start.advance a = q.start ∧
        Point.start.advance (a ++ t) = q.stop ∧ ¬ Point.CutsBreak a.toList (t ++ b).toList ∧
        ¬ Point.CutsBreak (a ++ t).toList b.toList := by
  constructor
  · intro p k
    unfold Point.offsetIn Point.advance
    rw [Point.offsetInChars_eq_some]
    constructor
    · rintro ⟨pre, suf, hcode, hk, ha, hc⟩
      refine ⟨String.ofList pre, String.ofList suf, ?_, ?_, by simpa using ha, by simpa using hc⟩
      · rw [← String.ofList_append, ← hcode, String.ofList_toList]
      · rw [String.utf8ByteSize_ofList, hk]
    · rintro ⟨pre, suf, rfl, rfl, ha, hc⟩
      refine ⟨pre.toList, suf.toList, String.toList_append, ?_, ha, hc⟩
      rw [← String.utf8ByteSize_ofList, String.ofList_toList]
  · intro q t
    unfold Position.textOf Point.advance
    rw [Option.map_eq_some_iff]
    simp only [Position.charsOf_eq_some]
    constructor
    · rintro ⟨t, ⟨a, b, hcode, ha, he, hca, hce⟩, rfl⟩
      refine ⟨String.ofList a, String.ofList b, ?_, ?_⟩
      · rw [← String.ofList_append, ← String.ofList_append, ← hcode, String.ofList_toList]
      · simpa using ⟨ha, he, hca, hce⟩
    · rintro ⟨a, b, rfl, ha, he, hca, hce⟩
      simp only [String.toList_append] at he hca hce
      exact ⟨t.toList, ⟨a.toList, b.toList, by simp, ha, he, hca, hce⟩, String.ofList_toList⟩

end Arbor
