import Arbor.Json.Decode
import Arbor.Report.Basic
import Arbor.Schema.Name

/-! Places, ranges, names, values and tokens, read back from reports. -/
namespace Arbor

instance : Decode Point where
  decode? j := (decode? j).map fun (line, column) => ⟨line, column⟩

instance : Decode Position where
  decode?
    | .array [a, b, c, d] => return ⟨← decode? (.array [a, b]), ← decode? (.array [c, d])⟩
    | _ => none

instance : Decode QualifiedName where
  decode? j := (decode? j).map fun (package, name) => ⟨package, name⟩

instance : Decode Value where
  decode?
    | .null => some .null
    | .bool b => some (.boolean b)
    | .string s => some (.string s)
    | j => do
        match ← j.given "int" with
        | some n => return .integer (← (Integer64.read n).toOption)
        | none => return .decimal (← (Binary64.read (← j.need "dec")).toOption)

/-- A token; without an index of its own it stands at `index`, and without a text it is empty. -/
def Token.ofReport? (index : Nat) (j : Json) : Option Token := do
  return ⟨⟨← j.need "kind"⟩, (← j.given "text").getD "", ← j.need "at",
    (← j.given "i").getD index, (← j.given "ch").getD 0⟩

instance : Decode Token := ⟨Token.ofReport? 0⟩

end Arbor
