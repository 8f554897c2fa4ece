import Arbor.Issue.Basic
import Arbor.Json.Record

/-!
Places, ranges and issues as JSON trees. An issue leaves out its empty parts, which reading
puts back.
-/
namespace Arbor

namespace Point

def toJson (p : Point) : Json :=
  .object [("line", Json.ofNat p.line), ("column", Json.ofNat p.column)]

def ofJson? (j : Json) : Option Point := do
  let f ← j.fields? ["line", "column"]
  return ⟨← f.required 0 Json.word32?, ← f.required 1 Json.word32?⟩

end Point

namespace Position

def toJson (r : Position) : Json := .object [("start", r.start.toJson), ("end", r.stop.toJson)]

def ofJson? (j : Json) : Option Position := do
  let f ← j.fields? ["start", "end"]
  return ⟨← f.required 0 Point.ofJson?, ← f.required 1 Point.ofJson?⟩

end Position

namespace Severity

def toJson (s : Severity) : Json := .string s.name
def ofJson? : Json → Option Severity := Json.choice? name all

end Severity

namespace IssueKind

def toJson (k : IssueKind) : Json := .string k.name
def ofJson? : Json → Option IssueKind := Json.choice? name all

end IssueKind

namespace IssueArg

def toJson (a : IssueArg) : Json := .object [("name", .string a.name), ("value", .string a.value)]

def ofJson? (j : Json) : Option IssueArg := do
  let f ← j.fields? ["name", "value"]
  return ⟨← f.required 0 Json.string?, ← f.required 1 Json.string?⟩

end IssueArg

namespace Issue

def toJson (i : Issue) : Json :=
  .object <|
    [("kind", i.kind.toJson), ("message", .string i.message), ("severity", i.severity.toJson)]
    ++ (i.position.map fun r => ("position", r.toJson)).toList
    ++ (i.code.map fun c => ("code", Json.string c)).toList
    ++ (if i.args.isEmpty then [] else [("args", .array (i.args.map IssueArg.toJson))])

def ofJson? (j : Json) : Option Issue := do
  let f ← j.fields? ["kind", "message", "severity", "position", "code", "args"]
  return {
    kind := ← f.required 0 IssueKind.ofJson?
    message := ← f.required 1 Json.string?
    severity := ← f.required 2 Severity.ofJson?
    position := ← f.withDefault 3 none (Json.nullable Position.ofJson?)
    code := ← f.withDefault 4 none (Json.nullable Json.string?)
    args := ← f.withDefault 5 [] (Json.list? IssueArg.ofJson?) }

end Issue

end Arbor
