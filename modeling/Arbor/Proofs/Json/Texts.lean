import Arbor.Json.Reader
import Arbor.Json.Writer
import Arbor.Proofs.Number.Digits

/-!
Reading what was written. The text of a tree reads as that tree, and what follows it is left alone:
escapes are undone character by character, digits are gathered one at a time, and a row ends at its
bracket. Numerals with a fraction or an exponent are left out, since reading rounds them.
-/
namespace Arbor.Json
open Reader

section Strings
variable {fuel n : Nat} {c e : Char} {rest last : List Char} {codes : List Nat}

/-- The characters between the quotes of a string. -/
def escaped (cs : List Char) : List Char := cs.flatMap fun c => (escapedChar c).toList

theorem escaped_cons (c : Char) (cs : List Char) :
    escaped (c :: cs) = (escapedChar c).toList ++ escaped cs := List.flatMap_cons

theorem toList_stringText (s : String) :
    (stringText s).toList = '"' :: (escaped s.toList ++ ['"']) := by
  simp [stringText, escaped, String.toList_join, List.flatMap_map]

theorem not_isHalf (c : Char) : isHighHalf c.toNat = false ∧ isLowHalf c.toNat = false := by
  have hvalid : c.toNat < 0xD800 ∨ 0xDFFF < c.toNat ∧ c.toNat < 0x110000 := c.valid
  simp only [isHighHalf, isLowHalf, Bool.and_eq_false_iff, decide_eq_false_iff_not]
  omega

/-- No character is half of a pair, so nothing is joined. -/
theorem joinHalves_map_toNat (cs : List Char) : joinHalves (cs.map Char.toNat) = some cs := by
  induction cs with
  | nil => rfl
  | cons c cs ih =>
    obtain ⟨hhigh, hlow⟩ := not_isHalf c
    cases cs with
    | nil => simp [joinHalves, hhigh, hlow]
    | cons d rest =>
      rw [List.map_cons] at ih
      simp [joinHalves, hhigh, hlow, ih]

theorem unit?_append {cs : List Char} (h : unit? cs = some (n, [])) (rest : List Char) :
    unit? (cs ++ rest) = some (n, rest) := by
  unfold unit? at h
  split at h
  · simp only [Option.bind_eq_bind, Option.bind_eq_some_iff, Option.pure_def, Option.some.injEq,
      Prod.mk.injEq] at h
    obtain ⟨a, ha, b, hb, c, hc, d, hd, hn, rfl⟩ := h
    simp [unit?, ha, hb, hc, hd, hn]
  · simp at h

/-- The controls have codes of four digits. -/
theorem unit?_control : ∀ n < 32,
    unit? (NumberFormat.zeros (4 - (Text.hex n).length) ++ Text.hex n).toList = some (n, []) := by
  decide

theorem stringCodes_letter (he : simpleEscape? e = some n)
    (h : stringCodes fuel rest = some (codes, last)) :
    stringCodes (fuel + 1) ('\\' :: e :: rest) = some (n :: codes, last) := by
  have hu : e ≠ 'u' := by
    rintro rfl
    cases he
  unfold stringCodes
  rw [if_neg (by decide), if_pos rfl]
  simp only [he, h]
  rfl

/-- One step of reading undoes the escape of one character. -/
theorem stringCodes_escapedChar (c : Char) (h : stringCodes fuel rest = some (codes, last)) :
    stringCodes (fuel + 1) ((escapedChar c).toList ++ rest) = some (c.toNat :: codes, last) := by
  unfold escapedChar
  split_ifs with hquote hback hlf hcr htab hbs hff hcontrol
  · exact stringCodes_letter (by rw [hquote]; rfl) h
  · exact stringCodes_letter (by rw [hback]; rfl) h
  · exact stringCodes_letter (by rw [hlf]; rfl) h
  · exact stringCodes_letter (by rw [hcr]; rfl) h
  · exact stringCodes_letter (by rw [htab]; rfl) h
  · exact stringCodes_letter (by rw [hbs]; rfl) h
  · exact stringCodes_letter (by rw [hff]; rfl) h
  · have hunit := unit?_append (unit?_control c.toNat hcontrol) rest
    simp only [String.toList_append, List.append_assoc] at hunit ⊢
    simp [stringCodes, hunit, h]
  · simp [stringCodes, hquote, hback, hcontrol, h]

theorem stringCodes_escaped {cs : List Char} (hfuel : cs.length < fuel) :
    stringCodes fuel (escaped cs ++ '"' :: rest) = some (cs.map Char.toNat, rest) := by
  induction cs generalizing fuel with
  | nil =>
    obtain ⟨fuel, rfl⟩ := Nat.exists_eq_add_one.mpr (show 0 < fuel by omega)
    simp [stringCodes, escaped]
  | cons c cs ih =>
    obtain ⟨fuel, rfl⟩ := Nat.exists_eq_add_one.mpr (show 0 < fuel by omega)
    rw [escaped_cons, List.append_assoc]
    exact stringCodes_escapedChar c (ih (by simpa using hfuel))

theorem length_le_escaped (cs : List Char) : cs.length ≤ (escaped cs).length := by
  have hpos : ∀ c, 1 ≤ (escapedChar c).toList.length := by
    intro c
    unfold escapedChar
    split_ifs <;> simp
  induction cs with
  | nil => simp
  | cons c cs ih =>
    have := hpos c
    rw [escaped_cons, List.length_append, List.length_cons]
    omega

theorem string_escaped (s : String) (rest : List Char) :
    Reader.string (escaped s.toList ++ '"' :: rest) = some (some s, rest) := by
  have hfuel : s.toList.length < (escaped s.toList ++ '"' :: rest).length + 1 := by
    have := length_le_escaped s.toList
    rw [List.length_append]
    omega
  simp only [Reader.string, stringCodes_escaped hfuel]
  simp [joinHalves_map_toNat]

end Strings

section Numerals
variable {c : Char} {rest : List Char}

/-- No numeral goes on in this text. -/
def Ends (rest : List Char) : Prop :=
  ∀ c ∈ rest.head?, ¬ isDigit c ∧ c ≠ '.' ∧ c ≠ 'e' ∧ c ≠ 'E'

theorem ends_nil : Ends [] := by simp [Ends]

/-- After a value comes one of these, or nothing. -/
theorem ends_cons (hc : c ∈ [',', ']', '\x7d']) (rest : List Char) : Ends (c :: rest) := by
  intro d hd
  obtain rfl : c = d := by simpa using hd
  simp only [List.mem_cons, List.not_mem_nil, or_false] at hc
  rcases hc with rfl | rfl | rfl <;> exact ⟨by decide, by decide, by decide, by decide⟩

/-- The sign of an integer. -/
def sign (negative : Bool) : List Char := if negative then ['-'] else []

/-- Digits with or without a sign are split off whole. -/
theorem numeral_append {ds : List Char} (negative : Bool) (hne : ds ≠ [])
    (hds : ∀ c ∈ ds, isDigit c) (hzero : ds.head? = some '0' → ds.length = 1) (hrest : Ends rest) :
    numeral (sign negative ++ (ds ++ rest)) = some (⟨negative, ds, none, none⟩, rest) := by
  have htake := takeWhile_append_of_head hds fun c hc => (hrest c hc).1
  have hdrop := dropWhile_append_of_head hds fun c hc => (hrest c hc).1
  have hwhole : ¬ (ds.isEmpty || (ds.head? = some '0' && ds.length ≠ 1)) := by
    simpa [hne] using hzero
  unfold numeral
  split
  next n body hsign =>
  obtain ⟨rfl, rfl⟩ : negative = n ∧ ds ++ rest = body := by
    cases negative with
    | true => simpa [sign] using hsign
    | false =>
      obtain ⟨c, more, rfl⟩ := List.exists_cons_of_ne_nil hne
      have hminus := (ne_sign_of_isDigit (hds c (by simp))).2
      simpa [sign, hminus] using hsign
  simp only [htake, hdrop, if_neg hwhole]
  cases rest with
  | nil => rfl
  | cons c rest =>
    obtain ⟨-, hpoint, hlower, hupper⟩ := hrest c rfl
    simp [hpoint, hlower, hupper]

/-- Digits whose value fits go in as they are. -/
theorem foldl_gatherWhole {cs : List Char} {n : Nat} (h : digitsFrom n cs < Nat.pow 2 64) :
    cs.foldl gatherWhole ⟨n, 0, true⟩ = ⟨digitsFrom n cs, 0, true⟩ := by
  induction cs generalizing n with
  | nil => rfl
  | cons c cs ih =>
    rw [digitsFrom_cons] at h ⊢
    have hstep := Nat.lt_of_le_of_lt (le_digitsFrom _ cs) h
    have hnext : gatherWhole ⟨n, 0, true⟩ c = ⟨10 * n + (c.toNat - '0'.toNat), 0, true⟩ := by
      simp only [gatherWhole, Bool.true_and]
      exact if_pos (decide_eq_true hstep)
    rw [List.foldl_cons, hnext]
    exact ih h

theorem foldl_gatherWhole_repr {n : Nat} (h : n < Nat.pow 2 64) :
    n.repr.toList.foldl gatherWhole ⟨0, 0, true⟩ = ⟨n, 0, true⟩ := by
  have hvalue : digitsFrom 0 n.repr.toList = n := digitsValue_repr n
  have hgather : n.repr.toList.foldl gatherWhole ⟨0, 0, true⟩ =
      ⟨digitsFrom 0 n.repr.toList, 0, true⟩ := foldl_gatherWhole (by rwa [hvalue])
  rwa [hvalue] at hgather

theorem value_natural {n : Nat} (h : n < Nat.pow 2 64) :
    Numeral.value ⟨false, n.repr.toList, none, none⟩ = some (.natural n) := by
  simp only [Numeral.value, foldl_gatherWhole_repr h]
  rfl

theorem value_negative {n : Nat} (hpos : 0 < n) (h : n ≤ Nat.pow 2 63) :
    Numeral.value ⟨true, n.repr.toList, none, none⟩ = some (.negative (-(n : Int))) := by
  have hfits : n < Nat.pow 2 64 := Nat.lt_of_le_of_lt h (by decide)
  simp only [Numeral.value, foldl_gatherWhole_repr hfits]
  simp [hpos, h]

theorem toList_compact_natural (n : Nat) :
    (compact (.number (.natural n))).toList = sign false ++ n.repr.toList := rfl

theorem toList_compact_negative {n : Nat} (h : 0 < n) :
    (compact (.number (.negative (-(n : Int))))).toList = sign true ++ n.repr.toList := by
  obtain ⟨n, rfl⟩ := Nat.exists_eq_add_one.mpr h
  have htext : compact (.number (.negative (-((n + 1 : Nat) : Int)))) = "-" ++ (n + 1).repr := rfl
  rw [htext, String.toList_append]
  rfl

/-- The first character of an integer. -/
theorem exists_sign_repr_eq_cons (negative : Bool) (n : Nat) :
    ∃ c cs, sign negative ++ n.repr.toList = c :: cs ∧ (isDigit c ∨ c = '-') := by
  cases negative with
  | true => exact ⟨'-', _, rfl, .inr rfl⟩
  | false =>
    obtain ⟨c, cs, hcs⟩ := List.exists_cons_of_ne_nil (repr_ne_nil n)
    exact ⟨c, cs, hcs, .inl (isDigit_of_mem_repr (hcs ▸ List.mem_cons_self))⟩

theorem not_isBlank_of_digit (hc : isDigit c ∨ c = '-') : isBlank c = false := by
  by_contra hblank
  simp only [isBlank, Bool.or_eq_true, decide_eq_true_eq, Bool.not_eq_false] at hblank
  rcases hblank with ((rfl | rfl) | rfl) | rfl <;> exact absurd hc (by decide)

theorem skipBlank_cons (h : isBlank c = false) (cs : List Char) : skipBlank (c :: cs) = c :: cs :=
  List.dropWhile_cons_of_neg (by simp [h])

/-- A digit or a sign opens a numeral and nothing else. -/
theorem value_of_digit {fuel : Nat} (hc : isDigit c ∨ c = '-') (cs : List Char) :
    value (fuel + 1) (c :: cs) = (numeral (c :: cs)).bind fun (n, rest) =>
      some ((n.value.map Json.number).getD .meaningless, rest) := by
  rw [value, skipBlank_cons (not_isBlank_of_digit hc)]
  split
  case h_7 => rfl
  all_goals
    rename_i heq
    obtain ⟨rfl, -⟩ := List.cons.inj heq
    exact absurd hc (by decide)

theorem value_integer {fuel n : Nat} {x : Number} (negative : Bool)
    (hvalue : Numeral.value ⟨negative, n.repr.toList, none, none⟩ = some x) (hrest : Ends rest) :
    value (fuel + 1) (sign negative ++ n.repr.toList ++ rest) = some (.number x, rest) := by
  have hnumeral := numeral_append negative (repr_ne_nil n) (fun c hc => isDigit_of_mem_repr hc)
    length_repr_of_head? hrest
  rw [← List.append_assoc] at hnumeral
  obtain ⟨c, cs, hcs, hc⟩ := exists_sign_repr_eq_cons negative n
  rw [hcs, List.cons_append] at hnumeral ⊢
  simp only [value_of_digit hc, hnumeral, Option.bind_some, hvalue]
  rfl

end Numerals

/-- Every numeral is an integer of 64 bits, with or without a sign, and every part has a meaning. -/
inductive Exact : Json → Prop where
  | null : Exact .null
  | bool (b : Bool) : Exact (.bool b)
  | natural {n : Nat} (h : n < Nat.pow 2 64) : Exact (.number (.natural n))
  | negative {n : Nat} (hpos : 0 < n) (h : n ≤ Nat.pow 2 63) :
      Exact (.number (.negative (-(n : Int))))
  | string (s : String) : Exact (.string s)
  | array {items : List Json} (h : ∀ j ∈ items, Exact j) : Exact (.array items)
  | object {members : List (String × Json)} (h : ∀ m ∈ members, Exact m.2) :
      Exact (.object members)

/-- The text of the tree reads as the tree and leaves what follows, if that is no more of a numeral;
as many steps as the text has characters are enough. -/
def Reads (j : Json) : Prop :=
  ∀ (fuel : Nat) (rest : List Char), j.compact.toList.length ≤ fuel → Ends rest →
    value fuel (j.compact.toList ++ rest) = some (j, rest)

section Rows
variable {fuel : Nat} {key : String} {cs more rest : List Char} {j : Json} {js : List Json}
  {m : String × Json} {ms : List (String × Json)}

theorem toList_row (t u : String) (us : List String) :
    (",".intercalate (t :: u :: us)).toList =
      t.toList ++ ',' :: (",".intercalate (u :: us)).toList := by
  rw [String.intercalate_cons_cons, String.toList_append, String.toList_append, List.append_assoc]
  rfl

/-- A row begins as its first text does. -/
theorem exists_row_eq_cons {c : Char} {t : String} (h : t.toList = c :: cs) (us : List String) :
    ∃ more, (",".intercalate (t :: us)).toList = c :: more := by
  cases us with
  | nil => exact ⟨cs, by rwa [String.intercalate_singleton]⟩
  | cons u us => exact ⟨_, by rw [toList_row, h, List.cons_append]⟩

theorem items_last (h : value fuel cs = some (j, ']' :: rest)) :
    items (fuel + 1) cs = some ([j], rest) := by
  rw [items, h]
  rfl

theorem items_more (h : value fuel cs = some (j, ',' :: more))
    (hmore : items fuel more = some (js, rest)) : items (fuel + 1) cs = some (j :: js, rest) := by
  rw [items, h]
  simp [skipBlank, isBlank, hmore]

theorem items_row (h : ∀ i ∈ j :: js, Reads i)
    (hfuel : (",".intercalate (compactItems (j :: js))).toList.length < fuel) (rest : List Char) :
    items fuel ((",".intercalate (compactItems (j :: js))).toList ++ ']' :: rest) =
      some (j :: js, rest) := by
  obtain ⟨fuel, rfl⟩ := Nat.exists_eq_add_one.mpr (show 0 < fuel by omega)
  -- on the items behind the first one, since it is the comma after an item that calls for more
  induction js generalizing j fuel with
  | nil =>
    simp only [compactItems, String.intercalate_singleton] at hfuel ⊢
    exact items_last (h j (by simp) fuel _ (by omega) (ends_cons (by simp) rest))
  | cons k ks ih =>
    simp only [compactItems, toList_row] at hfuel ih ⊢
    rw [List.length_append, List.length_cons] at hfuel
    obtain ⟨fuel, rfl⟩ := Nat.exists_eq_add_one.mpr (show 0 < fuel by omega)
    rw [List.append_assoc]
    refine items_more (h j (by simp) _ _ (by omega) (ends_cons (by simp) _)) ?_
    exact ih (fun i hi => h i (by simp [hi])) fuel (by omega)

theorem members_last (h : value fuel cs = some (j, '\x7d' :: rest)) :
    members (fuel + 1) ((stringText key).toList ++ ':' :: cs) = some ([(some key, j)], rest) := by
  rw [toList_stringText, List.cons_append, List.append_assoc]
  simp [members, skipBlank, isBlank, string_escaped, h]

theorem members_more {others : List (Option String × Json)}
    (h : value fuel cs = some (j, ',' :: more)) (hmore : members fuel more = some (others, rest)) :
    members (fuel + 1) ((stringText key).toList ++ ':' :: cs) =
      some ((some key, j) :: others, rest) := by
  rw [toList_stringText, List.cons_append, List.append_assoc]
  simp [members, skipBlank, isBlank, string_escaped, h, hmore]

theorem members_row (h : ∀ i ∈ m :: ms, Reads i.2)
    (hfuel : (",".intercalate (compactMembers (m :: ms))).toList.length < fuel)
    (rest : List Char) :
    members fuel ((",".intercalate (compactMembers (m :: ms))).toList ++ '\x7d' :: rest) =
      some ((m :: ms).map fun i => (some i.1, i.2), rest) := by
  obtain ⟨fuel, rfl⟩ := Nat.exists_eq_add_one.mpr (show 0 < fuel by omega)
  induction ms generalizing m fuel with
  | nil =>
    simp only [compactMembers, String.intercalate_singleton, String.toList_append,
      List.length_append, List.append_assoc] at hfuel ⊢
    exact members_last (h m (by simp) fuel _ (by omega) (ends_cons (by simp) rest))
  | cons k ks ih =>
    simp only [compactMembers, toList_row, String.toList_append, List.length_append,
      List.length_cons, List.append_assoc] at hfuel ih ⊢
    obtain ⟨fuel, rfl⟩ := Nat.exists_eq_add_one.mpr (show 0 < fuel by omega)
    refine members_more (h m (by simp) _ _ (by omega) (ends_cons (by simp) _)) ?_
    exact ih (fun i hi => h i (by simp [hi])) fuel (by omega)

end Rows

theorem objectOf_map_some (ms : List (String × Json)) :
    objectOf (ms.map fun m => (some m.1, m.2)) = .object ms := by
  simp [objectOf, List.filterMap_map, Function.comp_def]

section Values
variable {fuel : Nat} {c : Char} {cs rest : List Char} {j : Json}

theorem toList_compact_array (items : List Json) :
    (compact (.array items)).toList =
      '[' :: ((",".intercalate (compactItems items)).toList ++ [']']) := by
  rw [compact, String.toList_append, String.toList_append, List.append_assoc]
  rfl

theorem toList_compact_object (members : List (String × Json)) :
    (compact (.object members)).toList =
      '\x7b' :: ((",".intercalate (compactMembers members)).toList ++ ['\x7d']) := by
  rw [compact, String.toList_append, String.toList_append, List.append_assoc]
  rfl

/-- A tree begins neither with a blank nor with a closing bracket. -/
theorem Exact.exists_compact_eq_cons (h : Exact j) :
    ∃ c cs, j.compact.toList = c :: cs ∧ isBlank c = false ∧ c ≠ ']' := by
  have integer (negative : Bool) (n : Nat) : ∃ c cs,
      sign negative ++ n.repr.toList = c :: cs ∧ isBlank c = false ∧ c ≠ ']' := by
    obtain ⟨c, cs, hcs, hc⟩ := exists_sign_repr_eq_cons negative n
    refine ⟨c, cs, hcs, not_isBlank_of_digit hc, ?_⟩
    rintro rfl
    exact absurd hc (by decide)
  cases h with
  | null => exact ⟨'n', _, rfl, rfl, by decide⟩
  | bool b => cases b with
    | true => exact ⟨'t', _, rfl, rfl, by decide⟩
    | false => exact ⟨'f', _, rfl, rfl, by decide⟩
  | @natural n h => exact toList_compact_natural n ▸ integer false n
  | @negative n hpos h => exact toList_compact_negative hpos ▸ integer true n
  | string s => exact ⟨'"', _, toList_stringText s, rfl, by decide⟩
  | array h => exact ⟨'[', _, toList_compact_array _, rfl, by decide⟩
  | object h => exact ⟨'\x7b', _, toList_compact_object _, rfl, by decide⟩

theorem value_array {js : List Json} (hblank : isBlank c = false) (hc : c ≠ ']')
    (h : items fuel (c :: cs) = some (js, rest)) :
    value (fuel + 1) ('[' :: c :: cs) = some (.array js, rest) := by
  simp only [value, skipBlank_cons (c := '[') rfl, skipBlank_cons hblank]
  split
  · next heq => exact absurd (List.cons.inj heq).1 hc
  · rw [h]
    rfl

theorem value_object {ms : List (String × Json)}
    (h : members fuel ('"' :: cs) = some (ms.map fun m => (some m.1, m.2), rest)) :
    value (fuel + 1) ('\x7b' :: '"' :: cs) = some (.object ms, rest) := by
  simp [value, skipBlank, isBlank, h, objectOf_map_some]

/-- Each tree takes one step of its own. -/
theorem Reads.of_step (hne : j.compact.toList ≠ [])
    (h : ∀ fuel rest, j.compact.toList.length ≤ fuel + 1 → Ends rest →
      value (fuel + 1) (j.compact.toList ++ rest) = some (j, rest)) : Reads j := by
  intro fuel rest hfuel hrest
  have hpos := List.length_pos_of_ne_nil hne
  obtain ⟨fuel, rfl⟩ := Nat.exists_eq_add_one.mpr (show 0 < fuel by omega)
  exact h fuel rest hfuel hrest

theorem reads_string (s : String) : Reads (.string s) := by
  have htext : (compact (.string s)).toList = '"' :: (escaped s.toList ++ ['"']) :=
    toList_stringText s
  refine .of_step (by simp [htext]) fun fuel rest _ _ => ?_
  rw [htext, List.cons_append, List.append_assoc]
  simp [value, skipBlank, isBlank, string_escaped]

theorem reads_array {js : List Json} (h : ∀ i ∈ js, Exact i) (hreads : ∀ i ∈ js, Reads i) :
    Reads (.array js) := by
  refine .of_step (by simp [toList_compact_array]) fun fuel rest hfuel _ => ?_
  rw [toList_compact_array] at hfuel ⊢
  rw [List.length_cons, List.length_append, List.length_singleton] at hfuel
  cases js with
  | nil => rfl
  | cons j js =>
    have hrow : (",".intercalate (compactItems (j :: js))).toList.length < fuel := by omega
    have hitems := items_row hreads hrow rest
    -- the first character of the first item tells that the array is not empty
    obtain ⟨c, cs, hcs, hblank, hc⟩ := (h j List.mem_cons_self).exists_compact_eq_cons
    obtain ⟨more, hmore⟩ := exists_row_eq_cons hcs (compactItems js)
    rw [← compactItems] at hmore
    rw [List.cons_append, List.append_assoc]
    rw [hmore] at hitems ⊢
    exact value_array hblank hc hitems

theorem reads_object {ms : List (String × Json)} (hreads : ∀ m ∈ ms, Reads m.2) :
    Reads (.object ms) := by
  refine .of_step (by simp [toList_compact_object]) fun fuel rest hfuel _ => ?_
  rw [toList_compact_object] at hfuel ⊢
  rw [List.length_cons, List.length_append, List.length_singleton] at hfuel
  cases ms with
  | nil => rfl
  | cons m ms =>
    have hrow : (",".intercalate (compactMembers (m :: ms))).toList.length < fuel := by omega
    have hmembers := members_row hreads hrow rest
    have hkey : (stringText m.1 ++ ":" ++ m.2.compact).toList =
        '"' :: (escaped m.1.toList ++ '"' :: ':' :: m.2.compact.toList) := by
      simp [toList_stringText]
    obtain ⟨more, hmore⟩ := exists_row_eq_cons hkey (compactMembers ms)
    rw [← compactMembers] at hmore
    rw [List.cons_append, List.append_assoc]
    rw [hmore] at hmembers ⊢
    exact value_object hmembers

theorem Exact.reads (h : Exact j) : Reads j := by
  induction h with
  | null => exact .of_step (by decide) fun fuel rest _ _ => rfl
  | bool b =>
    cases b with
    | true => exact .of_step (by decide) fun fuel rest _ _ => rfl
    | false => exact .of_step (by decide) fun fuel rest _ _ => rfl
  | @natural n h =>
    exact .of_step (repr_ne_nil n) fun fuel rest _ hrest =>
      value_integer false (value_natural h) hrest
  | @negative n hpos h =>
    refine .of_step (by simp [toList_compact_negative hpos, sign]) fun fuel rest _ hrest => ?_
    rw [toList_compact_negative hpos]
    exact value_integer true (value_negative hpos h) hrest
  | string s => exact reads_string s
  | array h ih => exact reads_array h ih
  | object h ih => exact reads_object ih

/-- A written tree is read as it is. -/
theorem Exact.read?_compact (h : Exact j) : read? j.compact = some j := by
  have hread := h.reads (2 * j.compact.toList.length + 2) [] (by omega) ends_nil
  rw [List.append_nil] at hread
  simp only [read?, hread]
  rfl

end Values

end Arbor.Json
