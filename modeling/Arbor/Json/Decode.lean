import Arbor.Json.Basic

/-!
Typed access to JSON trees. Members of an object may be required or not, and a member that is
null counts as missing unless the difference is asked for.
-/
namespace Arbor

/-- What can be read off a JSON tree. -/
class Decode (α : Type) where
  decode? : Json → Option α

export Decode (decode?)

namespace Json
variable {α β : Type}

instance : Decode Json := ⟨some⟩
instance : Decode String := ⟨string?⟩
instance : Decode Nat := ⟨natural?⟩
instance : Decode Bool := ⟨bool?⟩
instance [Decode α] : Decode (List α) := ⟨fun j => j.array?.bind (·.mapM decode?)⟩

/-- A pair is an array of two items. -/
instance [Decode α] [Decode β] : Decode (α × β) where
  decode?
    | .array [a, b] => return (← decode? a, ← decode? b)
    | _ => none

/-- A member that must be there. -/
def need [Decode α] (j : Json) (key : String) : Option α := (j.get? key).bind decode?

/-- A member that may be missing; null is read as nothing. -/
def settable [Decode α] (j : Json) (key : String) : Option (Option (Option α)) :=
  match j.get? key with
  | none => some none
  | some .null => some (some none)
  | some v => (decode? v).map (some ∘ some)

/-- A member that may be missing or null. -/
def given [Decode α] (j : Json) (key : String) : Option (Option α) :=
  (j.settable key).map Option.join

/-- The items of a member, none if it is missing or null. -/
def listed [Decode α] (j : Json) (key : String) : Option (List α) :=
  (j.given key).map (·.getD [])

/-- A truth value, or `default` where there is none. -/
def flag (j : Json) (key : String) (default : Bool) : Bool :=
  ((j.get? key).bind bool?).getD default

end Json

end Arbor
