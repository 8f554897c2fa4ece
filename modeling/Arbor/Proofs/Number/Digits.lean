import Arbor.Number.Reading
import Mathlib.Data.List.Basic
import Mathlib.Data.List.TakeWhile

/-!
Numbers that are spelled by digits alone. Reading stops where the value passes the limit; the value
grows with every digit, so a number within the limit is read to its end. Digits, a point and digits
always read as some number. The decimal spelling of a number has its value.
-/
namespace Arbor

section Runs
variable {p : Char → Bool} {cs rest : List Char}

theorem dropWhile_of_head (h : ∀ c ∈ cs.head?, ¬ p c) : cs.dropWhile p = cs := by
  cases cs with
  | nil => rfl
  | cons c cs => exact List.dropWhile_cons_of_neg (h c rfl)

/-- A run ends where something else follows. -/
theorem takeWhile_append_of_head (hcs : ∀ c ∈ cs, p c) (hrest : ∀ c ∈ rest.head?, ¬ p c) :
    (cs ++ rest).takeWhile p = cs := by
  rw [List.takeWhile_append_of_pos hcs]
  cases rest with
  | nil => simp
  | cons c rest => rw [List.takeWhile_cons_of_neg (hrest c rfl), List.append_nil]

theorem dropWhile_append_of_head (hcs : ∀ c ∈ cs, p c) (hrest : ∀ c ∈ rest.head?, ¬ p c) :
    (cs ++ rest).dropWhile p = rest := by
  rw [List.dropWhile_append_of_pos hcs, dropWhile_of_head hrest]

end Runs

variable {c : Char} {cs : List Char}

theorem digitValue?_of_isDigit (h : isDigit c) : digitValue? c = some (c.toNat - '0'.toNat) := by
  unfold isDigit at h
  unfold digitValue? at h ⊢
  split at h
  · next hc => rw [if_pos hc]
  · simp at h

/-- The value after `n` and further digits. -/
def digitsFrom (n : Nat) (cs : List Char) : Nat :=
  cs.foldl (fun n c => 10 * n + (c.toNat - '0'.toNat)) n

theorem digitsFrom_cons (n : Nat) (c : Char) (cs : List Char) :
    digitsFrom n (c :: cs) = digitsFrom (10 * n + (c.toNat - '0'.toNat)) cs := by
  rw [digitsFrom, List.foldl_cons, ← digitsFrom]

theorem le_digitsFrom (n : Nat) (cs : List Char) : n ≤ digitsFrom n cs := by
  induction cs generalizing n with
  | nil => exact Nat.le_refl n
  | cons c cs ih =>
    have hrest := ih (10 * n + (c.toNat - '0'.toNat))
    rw [digitsFrom_cons]
    omega

theorem ne_sign_of_isDigit (h : isDigit c) : c ≠ '+' ∧ c ≠ '-' := by
  constructor <;> rintro rfl <;> exact absurd h (by decide)

section Spelling
variable {n : Nat}

theorem repr_ne_nil (n : Nat) : n.repr.toList ≠ [] := by
  rw [Nat.toList_repr]
  exact Nat.toDigits_ne_nil

theorem isDigit_of_mem_repr (h : c ∈ n.repr.toList) : isDigit c := by
  rw [Nat.toList_repr] at h
  have hdigit : '0' ≤ c ∧ c ≤ '9' := by
    simpa [Char.isDigit, Char.le_def] using Nat.isDigit_of_mem_toDigits (by omega) (by omega) h
  rw [isDigit, digitValue?, if_pos hdigit]
  rfl

theorem digitsValue_repr (n : Nat) : digitsValue n.repr.toList = n := by
  rw [Nat.toList_repr]
  exact Nat.ofDigitChars_toDigits (by omega) (by omega)

theorem head?_toDigits_ne (h : 0 < n) : (Nat.toDigits 10 n).head? ≠ some '0' := by
  induction n using Nat.strong_induction_on with
  | _ n ih =>
    rw [Nat.toDigits_eq_if (by omega)]
    split_ifs with hsmall
    · have hall : ∀ d < 10, 0 < d → [Nat.digitChar d].head? ≠ some '0' := by decide
      exact hall n hsmall h
    · rw [List.head?_append_of_ne_nil _ Nat.toDigits_ne_nil]
      exact ih (n / 10) (by omega) (by omega)

/-- Only zero is spelled with a zero in front. -/
theorem length_repr_of_head? (h : n.repr.toList.head? = some '0') : n.repr.toList.length = 1 := by
  rcases Nat.eq_zero_or_pos n with rfl | hpos
  · rfl
  · rw [Nat.toList_repr] at h
    exact absurd h (head?_toDigits_ne hpos)

end Spelling

namespace Integer64

theorem fits_iff {n : Int} : fits n ↔ low ≤ n ∧ n ≤ high := by
  simp only [fits, Bool.and_eq_true, decide_eq_true_eq]

theorem readDigits_eq_ok {limit n : Nat} (overflow : NumberError) (h : ∀ c ∈ cs, isDigit c)
    (hlimit : digitsFrom n cs ≤ limit) :
    readDigits limit overflow n cs = .ok (digitsFrom n cs) := by
  induction cs generalizing n with
  | nil => rfl
  | cons c cs ih =>
    have hc := digitValue?_of_isDigit (h c (by simp))
    rw [digitsFrom_cons] at hlimit ⊢
    have hstep := Nat.le_trans (le_digitsFrom _ cs) hlimit
    simp only [readDigits, hc, if_pos hstep]
    exact ih (fun d hd => h d (by simp [hd])) hlimit

/-- Digits read as their value if that fits. -/
theorem read_of_digits {text : String} (hne : text.toList ≠ []) (h : ∀ c ∈ text.toList, isDigit c)
    (hfits : fits (digitsValue text.toList)) : read text = .ok (digitsValue text.toList) := by
  have hlimit : digitsFrom 0 text.toList ≤ high.toNat := by
    have hhigh := (fits_iff.mp hfits).2
    change digitsValue text.toList ≤ high.toNat
    omega
  have hread := readDigits_eq_ok .tooLarge h hlimit
  unfold read
  generalize text.toList = cs at hne h hread
  obtain ⟨c, cs, rfl⟩ := List.exists_cons_of_ne_nil hne
  obtain ⟨hplus, hminus⟩ := ne_sign_of_isDigit (h c (by simp))
  unfold readChars
  split <;> simp_all [Except.map, digitsValue, digitsFrom]

end Integer64

namespace Binary64

/-- Digits, a point and digits read as a number. -/
theorem exists_read_decimal {text : String} (whole part : List Char)
    (htext : text.toList = whole ++ '.' :: part) (hne : whole ≠ [])
    (hwhole : ∀ c ∈ whole, isDigit c) (hpart : ∀ c ∈ part, isDigit c) :
    ∃ x, read text = .ok x := by
  obtain ⟨c, more, rfl⟩ := List.exists_cons_of_ne_nil hne
  obtain ⟨hplus, hminus⟩ := ne_sign_of_isDigit (hwhole c (by simp))
  have hdot : ∀ d ∈ ('.' :: part).head?, ¬ isDigit d := by simp [isDigit, digitValue?]
  have hunsigned : ∃ x, readUnsigned false text.toList = some x := by
    have htake := takeWhile_append_of_head hwhole hdot
    have hdrop := dropWhile_append_of_head hwhole hdot
    have hall : part.dropWhile isDigit = [] := List.dropWhile_eq_nil_iff.mpr hpart
    simp only [readUnsigned, htext, htake, hdrop, hall]
    simp
  obtain ⟨x, hx⟩ := hunsigned
  refine ⟨x, ?_⟩
  have hempty : ¬ text.isEmpty := by
    intro hnil
    rw [String.isEmpty_iff.mp hnil] at htext
    simp at htext
  rw [htext] at hx
  unfold read
  rw [htext]
  split
  next negative body hsign =>
  split at hsign
  · simp_all
  · simp_all
  · obtain ⟨rfl, rfl⟩ := Prod.mk.inj hsign
    rw [if_neg hempty, hx]
    rfl

end Binary64

end Arbor
