import Arbor.Issue.Codec
import Arbor.ParseTree
import Arbor.Value

/-!
JSON reports for tools. Reports are shorter than the JSON texts of the things themselves: a place
is an array of numbers, and a parse tree is a list of rows in preorder. Numbers of attributes
stand between quotes, so that no reader of the report rounds them.
-/
namespace Arbor

/-- What can stand in a report. -/
class Report (α : Type) where
  report : α → Json

export Report (report)

/-- Things are put into reports as they are. -/
instance {α : Type} [Report α] : CoeOut α Json := ⟨report⟩

instance : Report Json := ⟨id⟩
instance : Report Nat := ⟨Json.ofNat⟩
instance : Report Bool := ⟨.bool⟩
instance : Report String := ⟨.string⟩

instance {α : Type} [Report α] : Report (Option α) where
  report
    | none => .null
    | some a => report a

instance {α : Type} [Report α] : Report (List α) := ⟨fun items => .array (items.map report)⟩

/-- Less, equal and greater are -1, 0 and 1. -/
instance : Report Ordering where
  report
    | .lt => Json.ofInt (-1)
    | .eq => Json.ofInt 0
    | .gt => Json.ofInt 1

instance : Report Point := ⟨fun p => .array [p.line, p.column]⟩

instance : Report Position :=
  ⟨fun r => .array [r.start.line, r.start.column, r.stop.line, r.stop.column]⟩

instance : Report Value where
  report
    | .null => .null
    | .boolean b => b
    | .string s => s
    | .integer n => .object [("int", toString n)]
    | .decimal x => .object [("dec", NumberFormat.plain.render x)]

instance : Report Issue := ⟨Issue.toJson⟩

instance : Report Token where
  report t := .object [
    ("kind", t.kind.name), ("text", t.text), ("at", t.start), ("end", t.stop), ("i", t.index),
    ("ch", t.channel)]

namespace ParseTree

/-- One line of a tree: depth, sort of vertex, name, range and text. -/
def row (depth : Nat) (sort name : String) (position : Position) (text : String) : Json :=
  .array [depth, sort, name, position, text]

mutual

def rows (depth : Nat) : ParseTree → List Json
  | .token t => [row depth "token" t.kind.name t.position t.text]
  | .error m => [row depth "error" m.message m.position m.token.text]
  | .node ⟨rule, children, start, stop, input⟩ =>
      let n : ParseNode := ⟨rule, children, start, stop, input⟩
      row depth "rule" rule.name n.position n.text :: rowsOf (depth + 1) children

def rowsOf (depth : Nat) : List ParseTree → List Json
  | [] => []
  | t :: rest => rows depth t ++ rowsOf depth rest

end

end ParseTree

instance : Report ParseNode := ⟨fun n => .array ((ParseTree.node n).rows 0)⟩

end Arbor
