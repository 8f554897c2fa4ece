import Arbor.Json.Basic

/-!
Reading records from JSON trees. A record is an object, whose unknown members are skipped and
whose known members come at most once, or an array with the fields in order. A field is
required, or has a default for when it is missing.
-/
namespace Arbor.Json

/-- What the fields of a record are read from. -/
structure Fields where
  /-- The member of each field that is there, in field order. -/
  found : List (Option Json)

/-- Finds the members named by `names`. -/
def fields? (names : List String) : Json → Option Fields
  | .object members =>
      if names.all fun n => (members.filter (·.1 = n)).length ≤ 1 then
        some ⟨names.map fun n => (members.find? (·.1 = n)).map (·.2)⟩
      else none
  | .array items =>
      if items.length ≤ names.length then
        some ⟨items.map some ++ List.replicate (names.length - items.length) none⟩
      else none
  | _ => none

namespace Fields

/-- The field at `i`, which must be there. -/
def required {α : Type} (f : Fields) (i : Nat) (read : Json → Option α) : Option α :=
  (f.found[i]?.join).bind read

/-- The field at `i`, or `default` when it is missing. -/
def withDefault {α : Type} (f : Fields) (i : Nat) (default : α) (read : Json → Option α) :
    Option α :=
  match f.found[i]?.join with
  | none => some default
  | some j => read j

end Fields

/-- A value that may be null. -/
def nullable {α : Type} (read : Json → Option α) : Json → Option (Option α)
  | .null => some none
  | j => (read j).map some

/-- A natural number of 32 bits. -/
def word32? : Json → Option Nat
  | .number (.natural n) => if n < Nat.pow 2 32 then some n else none
  | _ => none

/-- One of named choices: its name, or an object with the name as its key and null. -/
def choice? {α : Type} (name : α → String) (choices : List α) : Json → Option α
  | .string s => choices.find? (name · = s)
  | .object [(s, .null)] => choices.find? (name · = s)
  | _ => none

/-- Every item of an array. -/
def list? {α : Type} (read : Json → Option α) : Json → Option (List α)
  | .array items => items.mapM read
  | _ => none

end Arbor.Json
