import Arbor.Text.Position
import Arbor.Text.Quoted

/-!
Structural listings: a name with its fields between braces, a name with one argument, or a
list between brackets. Diagnostics show values this way.
-/
namespace Arbor.Text

/-- The name and its fields; `more` says that fields are left out. -/
def fields (name : String) (parts : List (String × String)) (more : Bool := false) : String :=
  let shown := parts.map (fun (field, text) => field ++ ": " ++ text) ++ (if more then [".."] else [])
  if shown.isEmpty then name
  else name ++ " \x7b " ++ ", ".intercalate shown ++ " \x7d"

def applied (name : String) (argument : String) : String := name ++ "(" ++ argument ++ ")"

def bracketed (items : List String) : String := "[" ++ ", ".intercalate items ++ "]"

def optional {α : Type} (show' : α → String) : Option α → String
  | none => "None"
  | some a => applied "Some" (show' a)

def truth (b : Bool) : String := if b then "true" else "false"

end Arbor.Text

namespace Arbor

def Point.listing (p : Point) : String :=
  Text.fields "Point" [("line", toString p.line), ("column", toString p.column)]

def Position.listing (r : Position) : String :=
  Text.fields "Position" [("start", r.start.listing), ("end", r.stop.listing)]

end Arbor
