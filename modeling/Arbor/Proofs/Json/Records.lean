import Arbor.Issue.Codec
import Arbor.Proofs.Json.Texts
import Arbor.Value

/-!
Issues and values that are written and read back. A record is written with the fields that are there.
Reading finds each field by its name, and the default of a field that was left out is the empty part
for which it was left out. A value is written without its kind, which reading finds by trying.
-/
namespace Arbor

namespace Json

section Fields
variable {α : Type} {name : String} {field : Option Json} {fields : List (String × Option Json)}

/-- The members of a record: a field that is not there is left out. -/
def present (fields : List (String × Option Json)) : List (String × Json) :=
  fields.flatMap fun f => (f.2.map (f.1, ·)).toList

theorem present_cons :
    present ((name, field) :: fields) = (field.map (name, ·)).toList ++ present fields := rfl

theorem exact_present (fields : List (String × Option Json))
    (h : ∀ f ∈ fields, ∀ j ∈ f.2, Exact j) : Exact (.object (present fields)) := by
  refine .object fun m hm => ?_
  obtain ⟨f, hf, hfield⟩ := List.mem_flatMap.mp hm
  obtain ⟨j, hj, rfl⟩ := Option.map_eq_some_iff.mp (Option.mem_toList.mp hfield)
  exact h f hf j hj

theorem mem_names_of_mem_present {m : String × Json} (h : m ∈ present fields) :
    m.1 ∈ fields.map Prod.fst := by
  obtain ⟨f, hf, hfield⟩ := List.mem_flatMap.mp h
  obtain ⟨j, hj, rfl⟩ := Option.map_eq_some_iff.mp (Option.mem_toList.mp hfield)
  exact List.mem_map_of_mem hf

/-- Under the name of a field stands that field, once if it is there. -/
theorem filter_present (h : (fields.map Prod.fst).Nodup) (hmem : (name, field) ∈ fields) :
    (present fields).filter (·.1 = name) = (field.map (name, ·)).toList := by
  induction fields with
  | nil => cases hmem
  | cons f fields ih =>
    obtain ⟨other, value⟩ := f
    rw [List.map_cons, List.nodup_cons] at h
    rw [present_cons, List.filter_append]
    rcases List.mem_cons.mp hmem with heq | hmem
    · obtain ⟨rfl, rfl⟩ := Prod.mk.inj heq
      have hrest : (present fields).filter (·.1 = name) = [] := by
        rw [List.filter_eq_nil_iff]
        intro m hm hname
        exact h.1 (of_decide_eq_true hname ▸ mem_names_of_mem_present hm)
      rw [hrest, List.append_nil]
      cases field <;> simp
    · have hne : other ≠ name := by
        rintro rfl
        exact h.1 (List.mem_map.mpr ⟨_, hmem, rfl⟩)
      rw [ih h.2 hmem]
      cases value <;> simp [hne]

/-- Each field is found as it was written. -/
theorem fields?_present (fields : List (String × Option Json)) (h : (fields.map Prod.fst).Nodup) :
    fields? (fields.map Prod.fst) (.object (present fields)) = some ⟨fields.map Prod.snd⟩ := by
  have hfilter : ∀ f ∈ fields, (present fields).filter (·.1 = f.1) = (f.2.map (f.1, ·)).toList :=
    fun f hf => filter_present h hf
  have honce : (fields.map Prod.fst).all fun n =>
      ((present fields).filter (·.1 = n)).length ≤ 1 := by
    simp only [List.all_map, List.all_eq_true, Function.comp_apply, decide_eq_true_eq]
    intro f hf
    rw [hfilter f hf]
    cases f.2 <;> simp
  have hfound : (fields.map Prod.fst).map (fun n =>
      ((present fields).find? (·.1 = n)).map (·.2)) = fields.map Prod.snd := by
    rw [List.map_map]
    refine List.map_congr_left fun f hf => ?_
    rw [Function.comp_apply, ← List.head?_filter, hfilter f hf]
    cases f.2 <;> rfl
  rw [fields?, if_pos honce, hfound]

/-- A part that was left out is read as missing, and one that was written as it was. -/
theorem Fields.withDefault_map {f : Fields} {n : Nat} {write : α → Json} {read : Json → Option α}
    {part : Option α} (hfound : f.found[n]? = some (part.map write))
    (hread : ∀ a ∈ part, nullable read (write a) = some (some a)) :
    f.withDefault n none (nullable read) = some part := by
  cases part with
  | none => simp [withDefault, hfound]
  | some a => simp [withDefault, hfound, hread a rfl]

theorem list?_map {write : α → Json} {read : Json → Option α} {as : List α}
    (h : ∀ a ∈ as, read (write a) = some a) : list? read (.array (as.map write)) = some as := by
  rw [list?, List.mapM_map]
  induction as with
  | nil => rfl
  | cons a as ih =>
    rw [List.mapM_cons, ih fun b hb => h b (by simp [hb]), Function.comp_apply, h a (by simp)]
    rfl

end Fields

/-- What is read off a written tree is read off its text. -/
theorem Exact.bind_read?_compact {α : Type} {j : Json} {read : Json → Option α} {a : α}
    (h : Exact j) (hread : read j = some a) : (read? j.compact).bind read = some a := by
  rw [h.read?_compact, Option.bind_some, hread]

theorem exact_ofInt {n : Int} (h : Integer64.fits n) : Exact (ofInt n) := by
  obtain ⟨hlow, hhigh⟩ := Integer64.fits_iff.mp h
  unfold ofInt
  split_ifs with hsign
  · obtain ⟨m, rfl⟩ : ∃ m : Nat, n = -m := ⟨n.natAbs, by omega⟩
    have hm : (m : Int) ≤ (Nat.pow 2 63 : Nat) := by
      rw [Integer64.low] at hlow
      omega
    exact .negative (by omega) (by exact_mod_cast hm)
  · have hbound : Integer64.high < (Nat.pow 2 64 : Nat) := by decide
    exact .natural (by omega)

theorem word32?_ofNat {n : Nat} (h : n < Nat.pow 2 32) : word32? (ofNat n) = some n := if_pos h

end Json

open Json

namespace Point
variable {p : Point}

/-- Line and column are numbers of 32 bits. -/
def Fits (p : Point) : Prop := p.line < Nat.pow 2 32 ∧ p.column < Nat.pow 2 32

instance (p : Point) : Decidable p.Fits := inferInstanceAs (Decidable (_ ∧ _))

def fields (p : Point) : List (String × Option Json) :=
  [("line", some (ofNat p.line)), ("column", some (ofNat p.column))]

theorem toJson_eq (p : Point) : p.toJson = .object (present p.fields) := rfl

theorem exact_toJson (h : p.Fits) : Exact p.toJson := by
  have hwide : Nat.pow 2 32 < Nat.pow 2 64 := by decide
  have hline : Exact (ofNat p.line) := .natural (Nat.lt_trans h.1 hwide)
  have hcolumn : Exact (ofNat p.column) := .natural (Nat.lt_trans h.2 hwide)
  exact exact_present p.fields (by simp [fields, hline, hcolumn])

theorem ofJson?_toJson (h : p.Fits) : ofJson? p.toJson = some p := by
  have hfields : p.toJson.fields? ["line", "column"] = some ⟨p.fields.map Prod.snd⟩ :=
    fields?_present p.fields (by simp [fields])
  simp [ofJson?, hfields, fields, Fields.required, word32?_ofNat h.1, word32?_ofNat h.2]

end Point

namespace Position
variable {r : Position}

/-- Both ends have numbers of 32 bits. -/
def Fits (r : Position) : Prop := r.start.Fits ∧ r.stop.Fits

instance (r : Position) : Decidable r.Fits := inferInstanceAs (Decidable (_ ∧ _))

def fields (r : Position) : List (String × Option Json) :=
  [("start", some r.start.toJson), ("end", some r.stop.toJson)]

theorem toJson_eq (r : Position) : r.toJson = .object (present r.fields) := rfl

theorem exact_toJson (h : r.Fits) : Exact r.toJson := by
  have hstart := Point.exact_toJson h.1
  have hstop := Point.exact_toJson h.2
  exact exact_present r.fields (by simp [fields, hstart, hstop])

theorem ofJson?_toJson (h : r.Fits) : ofJson? r.toJson = some r := by
  have hfields : r.toJson.fields? ["start", "end"] = some ⟨r.fields.map Prod.snd⟩ :=
    fields?_present r.fields (by simp [fields])
  simp [ofJson?, hfields, fields, Fields.required, Point.ofJson?_toJson h.1,
    Point.ofJson?_toJson h.2]

end Position

theorem Severity.ofJson?_toJson (s : Severity) : ofJson? s.toJson = some s := by cases s <;> rfl

theorem IssueKind.ofJson?_toJson (k : IssueKind) : ofJson? k.toJson = some k := by cases k <;> rfl

namespace IssueArg

def fields (a : IssueArg) : List (String × Option Json) :=
  [("name", some (.string a.name)), ("value", some (.string a.value))]

theorem toJson_eq (a : IssueArg) : a.toJson = .object (present a.fields) := rfl

theorem exact_toJson (a : IssueArg) : Exact a.toJson :=
  exact_present a.fields (by simp [fields, Exact.string])

theorem ofJson?_toJson (a : IssueArg) : ofJson? a.toJson = some a := by
  have hfields : a.toJson.fields? ["name", "value"] = some ⟨a.fields.map Prod.snd⟩ :=
    fields?_present a.fields (by simp [fields])
  simp [ofJson?, hfields, fields, Fields.required, string?]

end IssueArg

namespace Issue
variable {i : Issue}

/-- The position of the issue, if it has one, has numbers of 32 bits. -/
def Fits (i : Issue) : Prop := ∀ r ∈ i.position, r.Fits

instance (i : Issue) : Decidable i.Fits := inferInstanceAs (Decidable (∀ r ∈ i.position, r.Fits))

def fields (i : Issue) : List (String × Option Json) :=
  [("kind", some i.kind.toJson), ("message", some (.string i.message)),
    ("severity", some i.severity.toJson), ("position", i.position.map Position.toJson),
    ("code", i.code.map Json.string),
    ("args", if i.args.isEmpty then none else some (.array (i.args.map IssueArg.toJson)))]

/-- The parts of an issue that are empty are left out. -/
theorem toJson_eq (i : Issue) : i.toJson = .object (present i.fields) := by
  simp only [toJson, present, fields, List.flatMap_cons, List.flatMap_nil, Option.map_some,
    Option.map_map, Option.toList_some, List.append_nil, List.cons_append, List.nil_append,
    List.append_assoc]
  split <;> rfl

example : (Issue.lexical "bad char" none).toJson.compact =
    "\x7b\"kind\":\"Lexical\",\"message\":\"bad char\",\"severity\":\"Error\"\x7d" := by
  decide

theorem exact_toJson (h : i.Fits) : Exact i.toJson := by
  have hposition (r) (hr : i.position = some r) : Exact r.toJson := Position.exact_toJson (h r hr)
  have hargs : Exact (.array (i.args.map IssueArg.toJson)) := by
    refine .array fun j hj => ?_
    obtain ⟨a, -, rfl⟩ := List.mem_map.mp hj
    exact a.exact_toJson
  rw [toJson_eq]
  refine exact_present i.fields ?_
  simpa [fields, Exact.string, IssueKind.toJson, Severity.toJson, hargs] using hposition

theorem ofJson?_toJson (h : i.Fits) : ofJson? i.toJson = some i := by
  let f : Fields := ⟨i.fields.map Prod.snd⟩
  have hfields : i.toJson.fields? ["kind", "message", "severity", "position", "code", "args"] =
      some f := by
    rw [toJson_eq]
    exact fields?_present i.fields (by simp [fields])
  have hkind : f.required 0 IssueKind.ofJson? = some i.kind := i.kind.ofJson?_toJson
  have hmessage : f.required 1 string? = some i.message := rfl
  have hseverity : f.required 2 Severity.ofJson? = some i.severity := i.severity.ofJson?_toJson
  -- a part that is there is never written as null, so null and nothing do not get mixed up
  have hposition : f.withDefault 3 none (nullable Position.ofJson?) = some i.position := by
    refine Fields.withDefault_map rfl fun r hr => ?_
    change (Position.ofJson? r.toJson).map some = some (some r)
    rw [Position.ofJson?_toJson (h r hr), Option.map_some]
  have hcode : f.withDefault 4 none (nullable string?) = some i.code :=
    Fields.withDefault_map rfl fun c _ => rfl
  have hargs : f.withDefault 5 [] (list? IssueArg.ofJson?) = some i.args := by
    have hfound : f.found[5]? =
        some (if i.args.isEmpty then none else some (.array (i.args.map IssueArg.toJson))) := rfl
    have hlist : list? IssueArg.ofJson? (.array (i.args.map IssueArg.toJson)) = some i.args :=
      list?_map fun a _ => a.ofJson?_toJson
    by_cases hnone : i.args = []
    · simp [Fields.withDefault, hfound, hnone]
    · simp [Fields.withDefault, hfound, hnone, hlist]
  simp [ofJson?, hfields, hkind, hmessage, hseverity, hposition, hcode, hargs]

end Issue

namespace Value
variable {v : Value}

/-- The values whose text says all: truth values, integers of 64 bits, strings and null. A decimal
is rounded when it is read. -/
inductive Plain : Value → Prop where
  | boolean (b : Bool) : Plain (.boolean b)
  | integer {n : Int} (h : Integer64.fits n) : Plain (.integer n)
  | string (s : String) : Plain (.string s)
  | null : Plain .null

theorem exact_toJson (h : v.Plain) : Exact v.toJson := by
  cases h with
  | boolean b => exact .bool b
  | integer h => exact exact_ofInt h
  | string s => exact .string s
  | null => exact .null

/-- No kind that is tried earlier takes the value. -/
theorem ofJson?_toJson (h : v.Plain) : ofJson? v.toJson = some v := by
  cases h with
  | boolean b => rfl
  | @integer n h =>
    obtain ⟨-, hhigh⟩ := Integer64.fits_iff.mp h
    simp only [toJson, ofInt]
    split_ifs with hsign
    · rfl
    · have hsmall : n.toNat ≤ Integer64.high.toNat := by omega
      have hvalue : ((n.toNat : Nat) : Int) = n := by omega
      simp [ofJson?, hsmall, hvalue]
  | string s => rfl
  | null => rfl

end Value

/-- Issues and plain values are read back from their texts as they were. -/
theorem issues_survive_json :
    (∀ i : Issue, i.Fits → (Json.read? i.toJson.compact).bind Issue.ofJson? = some i) ∧
    ∀ v : Value, v.Plain → (Json.read? v.toJson.compact).bind Value.ofJson? = some v := by
  constructor
  · intro i h
    exact (Issue.exact_toJson h).bind_read?_compact (Issue.ofJson?_toJson h)
  · intro v h
    exact (Value.exact_toJson h).bind_read?_compact (Value.ofJson?_toJson h)

/-- An issue with all its parts; its message has escapes and a character beyond 16 bits. -/
def fullIssue : Issue where
  kind := .semantic
  message := "unresolved \"x\\y\"\n\u0001😀"
  severity := .warning
  position := some ⟨⟨2, 4⟩, ⟨4294967295, 0⟩⟩
  code := some "E042"
  args := [⟨"name", "foo"⟩, ⟨"", ""⟩]

theorem issues_survive_json_full :
    fullIssue.Fits ∧
    (Json.read? fullIssue.toJson.compact).bind Issue.ofJson? = some fullIssue ∧
    (Value.integer Integer64.low).Plain ∧
    (Json.read? (Value.integer Integer64.low).toJson.compact).bind Value.ofJson? =
      some (.integer Integer64.low) :=
  ⟨by decide, issues_survive_json.1 fullIssue (by decide), .integer rfl,
    issues_survive_json.2 _ (.integer rfl)⟩

end Arbor
