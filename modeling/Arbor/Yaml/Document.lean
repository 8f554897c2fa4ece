import Arbor.Table
import Arbor.Yaml.Node
import Arbor.Yaml.Token

/-!
YAML texts with at most one document, which becomes a tree of nodes and then a JSON tree. The
grammar is followed token by token; where an item may be left out, nothing stands for it.
-/
namespace Arbor.Yaml

/-- The tokens that are left, and the names met before. -/
structure Progress where
  tokens : List Token
  /-- What tag handles stand for. -/
  handles : Table String String := ∅
  /-- The number that each anchor name has now. -/
  anchors : Table String Nat := ∅
deriving Inhabited

/-- Reading that may fail. -/
abbrev Parse := StateT Progress Option

namespace Parse

def peek : Parse Token := return (← get).tokens.head?.getD .finish

def skip : Parse Unit := modify fun p => { p with tokens := p.tokens.drop 1 }

def expect (t : Token) : Parse Unit := do
  if (← peek) = t then skip else failure

/-- Passes the token if it is next, and tells whether it was. -/
def accept (t : Token) : Parse Bool := do
  if (← peek) = t then
    skip
    return true
  else return false

def anchor : Parse (Option String) := do
  match ← peek with
  | .anchor name =>
      skip
      return some name
  | _ => return none

/-- The next tag with its handle replaced. -/
def tag : Parse (Option String) := do
  match ← peek with
  | .tag t =>
      skip
      if t.handle.isEmpty then return some t.suffix
      match (← get).handles.get? t.handle with
      | some replacement => return some (replacement ++ t.suffix)
      | none => failure
  | _ => return none

/-- The anchor and the tag of a node, in either order. -/
def properties : Parse (Option String × Option String) := do
  match ← anchor with
  | some name => return (some name, ← tag)
  | none =>
      let t ← tag
      return (← anchor, t)

/-- A number for an anchor: as many as there are names so far. -/
def number (name : String) : Parse Nat := do
  let p ← get
  let n := p.anchors.size
  set { p with anchors := p.anchors.insert name n }
  return n

/-- An alias for the node that has the name now. -/
def aliased (name : String) : Parse Node := do
  match (← get).anchors.get? name with
  | some n => return .aliasOf n
  | none => failure

mutual

/-- A node. Block collections are possible inside blocks only, and a sequence that is not
indented only as an entry of a block mapping. -/
def node : Nat → Bool → Bool → Parse Node
  | 0, _, _ => failure
  | fuel + 1, inBlock, asEntry => do
      if let .aliasOf name := ← peek then
        skip
        return ← aliased name
      let (anchorName, tag) ← properties
      let anchor ← anchorName.mapM number
      let nothing : Parse Node :=
        if anchor.isSome || tag.isSome then return .scalar anchor tag .empty else failure
      match ← peek with
      | .scalar s =>
          skip
          return .scalar anchor tag s
      | .flowSequenceStart =>
          skip
          return .sequence anchor (← flowItems fuel true)
      | .flowMappingStart =>
          skip
          return .mapping anchor (← flowEntries fuel true)
      | .blockSequenceStart =>
          if !inBlock then nothing
          else
            skip
            return .sequence anchor (← blockItems fuel)
      | .blockMappingStart =>
          if !inBlock then nothing
          else
            skip
            return .mapping anchor (← blockEntries fuel)
      | .blockEntry =>
          if !asEntry then nothing else return .sequence anchor (← looseItems fuel)
      | _ => nothing

/-- A node in a block, or nothing if one of the given tokens is next. -/
def blockNode : Nat → Bool → List Token → Parse Node
  | 0, _, _ => failure
  | fuel + 1, asEntry, stops => do
      if stops.contains (← peek) then return .empty else node fuel true asEntry

/-- A node in a flow collection, or nothing if one of the given tokens is next. -/
def flowNode : Nat → List Token → Parse Node
  | 0, _ => failure
  | fuel + 1, stops => do
      if stops.contains (← peek) then return .empty else node fuel false false

def blockItems : Nat → Parse (List Node)
  | 0 => failure
  | fuel + 1 => do
      if ← accept .blockEntry then
        let item ← blockNode fuel false [.blockEntry, .blockEnd]
        return item :: (← blockItems fuel)
      else
        expect .blockEnd
        return []

/-- The items of a sequence that is not indented more than the mapping around it. -/
def looseItems : Nat → Parse (List Node)
  | 0 => failure
  | fuel + 1 => do
      if ← accept .blockEntry then
        let item ← blockNode fuel false [.blockEntry, .key, .value, .blockEnd]
        return item :: (← looseItems fuel)
      else return []

def blockEntries : Nat → Parse (List (Node × Node))
  | 0 => failure
  | fuel + 1 => do
      if ← accept .key then
        let key ← blockNode fuel true [.key, .value, .blockEnd]
        let item ← if ← accept .value then blockNode fuel true [.key, .value, .blockEnd]
          else pure .empty
        return (key, item) :: (← blockEntries fuel)
      else
        expect .blockEnd
        return []

/-- The items of a flow sequence, of which `first` tells that none was read yet. An item may be a
mapping with a single entry. -/
def flowItems : Nat → Bool → Parse (List Node)
  | 0, _ => failure
  | fuel + 1, first => do
      if ← accept .flowSequenceEnd then return []
      if !first then expect .flowEntry
      match ← peek with
      | .flowSequenceEnd =>
          skip
          return []
      | .key =>
          skip
          let entry ← singleEntry fuel
          return .mapping none [entry] :: (← flowItems fuel false)
      | _ =>
          let item ← node fuel false false
          return item :: (← flowItems fuel false)

/-- The entry of a mapping that is an item of a flow sequence. Where the key is left out, the
token behind it is passed. -/
def singleEntry : Nat → Parse (Node × Node)
  | 0 => failure
  | fuel + 1 => do
      let next ← peek
      let key ← flowNode fuel [.value, .flowEntry, .flowSequenceEnd]
      if [.value, .flowEntry, .flowSequenceEnd].contains next then skip
      let item ← if ← accept .value then flowNode fuel [.flowEntry, .flowSequenceEnd]
        else pure .empty
      return (key, item)

/-- The entries of a flow mapping, of which `first` tells that none was read yet. -/
def flowEntries : Nat → Bool → Parse (List (Node × Node))
  | 0, _ => failure
  | fuel + 1, first => do
      if ← accept .flowMappingEnd then return []
      if !first then expect .flowEntry
      match ← peek with
      | .flowMappingEnd =>
          skip
          return []
      | .key =>
          skip
          let key ← flowNode fuel [.value, .flowEntry, .flowMappingEnd]
          let item ← if ← accept .value then flowNode fuel [.flowEntry, .flowMappingEnd]
            else pure .empty
          return (key, item) :: (← flowEntries fuel false)
      | _ =>
          let key ← node fuel false false
          return (key, .empty) :: (← flowEntries fuel false)

end

/-- Reads directives. The version comes at most once and is known, and a handle is replaced in
one way. -/
def directives : Nat → Bool → Parse Unit
  | 0, _ => failure
  | fuel + 1, versioned => do
      match ← peek with
      | .directive (.version major minor) =>
          if versioned || major ≠ 1 || (minor ≠ 1 && minor ≠ 2) then failure
          skip
          directives fuel true
      | .directive (.tag handle replacement) =>
          if (← get).handles.contains handle then failure
          modify fun p => { p with handles := p.handles.insert handle replacement }
          skip
          directives fuel versioned
      | _ => return ()

/-- What handles stand for unless a directive says otherwise. -/
def addDefaultHandles : Parse Unit :=
  modify fun p =>
    let add (t : Table String String) (handle replacement : String) : Table String String :=
      if t.contains handle then t else t.insert handle replacement
    { p with handles := add (add p.handles "!" "!") "!!" "tag:yaml.org,2002:" }

def isDirective : Token → Bool
  | .directive _ => true
  | _ => false

/-- The root of a document behind the mark of its start. -/
def content (fuel : Nat) : Parse Node := do
  let next ← peek
  if isDirective next || [.documentStart, .documentEnd, .finish].contains next then return .empty
  else node fuel true false

/-- Passes marks of the end of a document. -/
def ends : Nat → Parse Unit
  | 0 => return ()
  | fuel + 1 => do if ← accept .documentEnd then ends fuel

/-- The root of the only document; nothing may come after it. -/
def document (fuel : Nat) : Parse Node := do
  let next ← peek
  if next = .finish then return .empty
  let marked := isDirective next || next = .documentStart
  if marked then directives fuel false
  addDefaultHandles
  let root ← if marked then
      expect .documentStart
      content fuel
    else node fuel true false
  ends fuel
  expect .finish
  return root

end Parse

/-- The root of the document in a text. Each token starts at most three levels of reading. -/
def document? (text : String) : Option Node := do
  let tokens ← tokenize? text
  let (root, _) ← (Parse.document (3 * tokens.length + 4)).run { tokens }
  return root

/-- The JSON tree of the document in a text, down to `depth`. -/
def read? (depth : Nat) (text : String) : Option Json := do
  let root ← document? text
  return root.toJson depth root

end Arbor.Yaml
