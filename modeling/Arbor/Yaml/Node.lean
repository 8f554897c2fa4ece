import Arbor.Json.Basic
import Arbor.Yaml.Scalar

/-!
Nodes of a YAML document, and the JSON trees they are read as. A node may have the number of an
anchor, and an alias stands for the last node of the document with its number, be it before or
around the alias. So a document may be endless, and is read down to a depth.
-/
namespace Arbor.Yaml

inductive Node where
  | aliasOf (number : Nat)
  | scalar (anchor : Option Nat) (tag : Option String) (s : Scalar)
  | sequence (anchor : Option Nat) (items : List Node)
  | mapping (anchor : Option Nat) (entries : List (Node × Node))
deriving Inhabited

namespace Node

/-- A node of which nothing is written. -/
def empty : Node := .scalar none none .empty

/-- The number of the node's anchor. -/
def anchor? : Node → Option Nat
  | .aliasOf _ => none
  | .scalar anchor _ _ => anchor
  | .sequence anchor _ => anchor
  | .mapping anchor _ => anchor

mutual

/-- The last node with this number in and under a node, in the order of the text. -/
def find? (number : Nat) : Node → Option Node
  | .aliasOf _ => none
  | .scalar anchor tag s => if anchor = some number then some (.scalar anchor tag s) else none
  | .sequence anchor items =>
      (findInItems? number items).or
        (if anchor = some number then some (.sequence anchor items) else none)
  | .mapping anchor entries =>
      (findInEntries? number entries).or
        (if anchor = some number then some (.mapping anchor entries) else none)

def findInItems? (number : Nat) : List Node → Option Node
  | [] => none
  | n :: rest => (findInItems? number rest).or (n.find? number)

def findInEntries? (number : Nat) : List (Node × Node) → Option Node
  | [] => none
  | (key, item) :: rest =>
      (findInEntries? number rest).or ((item.find? number).or (key.find? number))

end

/-- The node itself, or the node of the document that it stands for. -/
def resolveIn (n document : Node) : Node :=
  match n with
  | .aliasOf number => (document.find? number).getD empty
  | n => n

/-- The text of a scalar. -/
def text? : Node → Option String
  | .scalar _ _ s => some s.text
  | _ => none

end Node

/-- The tag of truth values. -/
def boolTag : String := "tag:yaml.org,2002:bool"

def bool? (text : String) : Option Bool :=
  if text ∈ ["true", "True", "TRUE"] then some true
  else if text ∈ ["false", "False", "FALSE"] then some false
  else none

/-- What a scalar stands for. Plain words and literal blocks with the tag of truth values may be
truth values, and where nothing is written stands an empty object. -/
def Scalar.toJson (s : Scalar) (tag : Option String) : Json :=
  let plain := s.style = .plain
  match bool? s.text with
  | some b =>
      if plain || (s.style = .literal && tag = some boolTag) then .bool b else .string s.text
  | none => if plain && s.text.isEmpty then .object [] else .string s.text

/-- The JSON tree of a node, with at most `depth` objects inside each other. A sequence denotes
nothing, and neither does a mapping with a key that is no scalar. -/
def Node.toJson (document : Node) : Nat → Node → Json
  | 0, _ => .meaningless
  | depth + 1, n =>
      match n.resolveIn document with
      | .scalar _ tag s => s.toJson tag
      | .mapping _ entries =>
          let members := entries.mapM fun (key, item) =>
            (key.resolveIn document).text?.map fun name => (name, toJson document depth item)
          (members.map .object).getD .meaningless
      | _ => .meaningless

end Arbor.Yaml
