import Arbor.Yaml.Tape

/-!
Names in YAML: anchors, tags and the directives that shorten tags. A tag is a whole identifier
between angle brackets, or a handle and what follows it; escaped octets are read as characters
of the same numbers.
-/
namespace Arbor.Yaml

/-- A shortened tag: a handle, empty for a tag that is whole, and what follows it. -/
structure Tag where
  handle : String
  suffix : String
deriving DecidableEq, Inhabited

namespace Tag

/-- Marks that may stand in an identifier besides name characters and escapes. -/
def identifierMarks : List Char := ";/?:@&=+$.!~*'()".toList

/-- Whether a character may stand in an identifier; commas and brackets only in a `whole` one. -/
def isIdentifierChar (whole : Bool) (c : Char) : Bool :=
  isNameChar c || identifierMarks.contains c || (whole && (c = ',' || c = '[' || c = ']'))

/-- An escaped octet. -/
def octet? : List Char → Option (Nat × List Char)
  | '%' :: a :: b :: rest => do
      let high ← hexValue? a
      let low ← hexValue? b
      return (16 * high + low, rest)
  | _ => none

/-- How many octets follow the first one of a character. -/
def trailingOctets? (first : Nat) : Option Nat :=
  if first < 0x80 then some 0
  else if first / 32 = 6 then some 1
  else if first / 16 = 14 then some 2
  else if first / 8 = 30 then some 3
  else none

/-- The octets behind the first one of a character. -/
def trailing : Nat → List Char → Option (List Char × List Char)
  | 0, cs => some ([], cs)
  | n + 1, cs => do
      let (octet, cs) ← octet? cs
      if octet / 64 ≠ 2 then none
      let (more, cs) ← trailing n cs
      return (Char.ofNat octet :: more, cs)

/-- One escaped character. -/
def escaped (cs : List Char) : Option (List Char × List Char) := do
  let (first, cs) ← octet? cs
  let count ← trailingOctets? first
  let (more, cs) ← trailing count cs
  return (Char.ofNat first :: more, cs)

/-- The longest identifier at the start of a text, and the rest. -/
def identifierFrom (whole : Bool) : Nat → List Char → Option (List Char × List Char)
  | 0, cs => some ([], cs)
  | fuel + 1, cs =>
      match cs with
      | [] => some ([], [])
      | c :: rest =>
          if c = '%' then do
            let (octets, rest) ← escaped cs
            let (more, rest) ← identifierFrom whole fuel rest
            return (octets ++ more, rest)
          else if isIdentifierChar whole c then
            (identifierFrom whole fuel rest).map fun (more, rest) => (c :: more, rest)
          else some ([], cs)

/-- Reads an identifier, which may be empty. -/
def identifier (whole : Bool) (t : Tape) : Option (List Char × Tape) :=
  (identifierFrom whole t.rest.length t.rest).map fun (text, rest) =>
    (text, t.forward (t.rest.length - rest.length))

/-- Reads an identifier of at least one character. -/
def identifier1 (whole : Bool) (t : Tape) : Option (List Char × Tape) :=
  (identifier whole t).filter fun (_, t') => t'.index ≠ t.index

/-- Reads an exclamation mark, a name, and a second exclamation mark if there is one; the answer
tells whether there is. -/
def readHandle (t : Tape) : Option (List Char × Bool × Tape) :=
  if t.sees '!' then
    let (name, t) := t.skip.span isNameChar
    if t.sees '!' then some ('!' :: name ++ ['!'], true, t.skip) else some ('!' :: name, false, t)
  else none

/-- Reads a tag up to where it must end. -/
def body (t : Tape) : Option (Tag × Tape) := do
  if t.rest[1]? = some '<' then
    let (text, t) ← identifier1 true (t.forward 2)
    if t.sees '>' then some (⟨"", String.ofList text⟩, t.skip) else none
  else
    let (start, closed, t) ← readHandle t
    if closed then
      let (text, t) ← identifier1 false t
      return (⟨String.ofList start, String.ofList text⟩, t)
    else
      let (text, t) ← identifier false t
      let suffix := start.drop 1 ++ text
      return (if suffix.isEmpty then ⟨"", "!"⟩ else ⟨"!", String.ofList suffix⟩, t)

/-- Reads a tag. -/
def read (inFlow : Bool) (t : Tape) : Option (Tag × Tape) :=
  (body t).filter fun (_, t) => endsWord t.peek || (inFlow && t.sees ',')

end Tag

/-- Reads the name of an anchor behind its mark. -/
def readAnchor (t : Tape) : Option (String × Tape) :=
  let (name, t) := t.skip.span isNameChar
  if !name.isEmpty && (endsWord t.peek || t.peek.any ("?:,]\x7d%@\x60".toList.contains ·)) then
    some (String.ofList name, t)
  else none

/-- A line of settings before a document. -/
inductive Directive where
  | version (major minor : Nat)
  /-- What a handle stands for. -/
  | tag (handle replacement : String)
deriving DecidableEq, Inhabited

namespace Directive

/-- Reads a number of at most nine digits. -/
def number (t : Tape) : Option (Nat × Tape) :=
  let (digits, t) := t.span Char.isDigit
  if digits.isEmpty || 9 < digits.length then none
  else some (digits.foldl (fun n c => 10 * n + (c.toNat - 48)) 0, t)

def versionValue (t : Tape) : Option (Directive × Tape) := do
  let (major, t) ← number t
  if !t.sees '.' then none
  let (minor, t) ← number t.skip
  return (.version major minor, t)

def tagValue (t : Tape) : Option (Directive × Tape) := do
  let (handle, closed, t) ← Tag.readHandle t
  if !closed && handle.length ≠ 1 then none
  if !t.peek.any isBlank then none
  let (text, t) ← Tag.identifier1 true (t.skipWhile isBlank)
  if !endsWord t.peek then none
  return (.tag (String.ofList handle) (String.ofList text), t)

/-- Reads a directive and the rest of its line. -/
def read (t : Tape) : Option (Directive × Tape) := do
  let (name, t) := t.skip.span isNameChar
  if name.isEmpty || !endsWord t.peek then none
  let t := t.skipWhile isBlank
  let (d, t) ← match String.ofList name with
    | "YAML" => versionValue t
    | "TAG" => tagValue t
    | _ => none
  return (d, ← t.finishLine)

end Directive

end Arbor.Yaml
