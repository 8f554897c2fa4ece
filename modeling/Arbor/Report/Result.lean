import Arbor.Forest.Printer
import Arbor.Pipeline.Basic
import Arbor.Report.Basic

/-! Reports of what parsing gave. Nodes of the tree are named by their places in preorder. -/
namespace Arbor

instance : Report LexingResult where
  report r := .object [
    ("correct", r.correct), ("code", r.code), ("tokens", r.tokens), ("issues", r.issues)]

instance : Report FirstStage where
  report r := .object [
    ("correct", r.correct), ("code", r.code), ("root", r.root), ("issues", r.issues),
    ("parse_nodes", r.parseNodeCount), ("tokens", r.tokenCount), ("lexing_time", r.lexingTimed)]

namespace Forest

/-- The references that a node holds, with the names of their properties. -/
def referencesOf (f : Forest) (id : NodeId) : List (String × Reference) :=
  ((f.node? id).map Node.properties).getD [] |>.filterMap fun
    | (p, .reference r) => some (p.name, r)
    | _ => none

end Forest

/-- The place of a node in a list of nodes. -/
def placeIn (nodes : List NodeId) (id : NodeId) : Option Nat := nodes.findIdx? (· = id)

namespace ParsingResult

/-- The nodes of the tree in preorder. -/
def nodes (r : ParsingResult) (f : Forest) : List NodeId := (r.root.map f.walk).getD []

def referenceRows (f : Forest) (nodes : List NodeId) : List Json :=
  nodes.flatMap fun id => (f.referencesOf id).map fun (property, r) =>
    .array [placeIn nodes id, property, r.name, (f.target? r).bind (placeIn nodes)]

def problemRows (r : ParsingResult) (f : Forest) (nodes : List NodeId) : List Json :=
  ((r.root.map f.invalidPositions).getD []).map fun (id, problem) =>
    .array [placeIn nodes id, problem.message]

/-- The tree, its issues and its links. -/
def brief (r : ParsingResult) (f : Forest) : List (String × Json) :=
  let nodes := r.nodes f
  [("correct", r.correct),
    ("ast", r.root.map f.print),
    ("issues", r.issues),
    ("nodes", r.nodeCount f),
    ("tokens", r.firstStage.tokenCount),
    ("lexing_time", r.firstStage.lexingTimed),
    ("refs", referenceRows f nodes),
    ("invalid", r.problemRows f nodes)]

/-- The texts and the containing nodes of all nodes, and the parse tree. -/
def details (r : ParsingResult) (f : Forest) : List (String × Json) :=
  let nodes := r.nodes f
  [("issue_lines", r.issues.map Issue.display),
    ("texts", nodes.map f.text),
    ("parents", nodes.map fun id => (f.parent? id).bind (placeIn nodes)),
    ("first_stage", .object [
      ("root", r.firstStage.root),
      ("issues", r.firstStage.issues.length),
      ("parse_nodes", r.firstStage.parseNodeCount)])]

end ParsingResult

end Arbor
