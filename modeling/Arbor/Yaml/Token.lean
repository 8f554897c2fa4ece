import Arbor.Yaml.Scalar
import Arbor.Yaml.Tag

/-!
Tokens of YAML. Besides what is written there are tokens for where block collections start and
end, which indentation decides, and for keys, which are known as such only when their colon
comes. A place where a key may have started is kept until then, and the tokens of the key are
put in there.
-/
namespace Arbor.Yaml

inductive Token where
  | directive (d : Directive)
  | documentStart
  | documentEnd
  | blockSequenceStart
  | blockMappingStart
  | blockEnd
  | flowSequenceStart
  | flowSequenceEnd
  | flowMappingStart
  | flowMappingEnd
  | blockEntry
  | flowEntry
  | key
  | value
  /-- The node with this anchor once more. -/
  | aliasOf (name : String)
  | anchor (name : String)
  | tag (t : Tag)
  | scalar (s : Scalar)
  /-- The end of the text. -/
  | finish
deriving DecidableEq, Inhabited

/-- A place where a key on one line may have started. -/
structure KeyStart where
  /-- The number of the next token there. -/
  number : Nat
  /-- Whether only a key can stand there. -/
  required : Bool
  index : Nat
  line : Nat
  column : Nat
deriving DecidableEq, Inhabited

namespace KeyStart

/-- The greatest length of a key on one line. -/
def limit : Nat := 1024

/-- Whether the colon would come too late. -/
def isPast (k : KeyStart) (t : Tape) : Bool := k.line < t.line || k.index + limit < t.index

/-- The place as long as the colon may still come; a key that is required must come. -/
def stillOpen (t : Tape) : Option KeyStart → Option (Option KeyStart)
  | none => some none
  | some k => if !k.isPast t then some (some k) else if k.required then none else some none

end KeyStart

/-- A text cut into tokens so far. -/
structure Layout where
  tape : Tape
  tokens : Array Token := #[]
  /-- One more than the column of the innermost block collection, zero outside of all. -/
  margin : Nat := 0
  /-- The margins around it, innermost first. -/
  margins : List Nat := []
  /-- Whether a key on one line, or a block collection, may start here. -/
  keyAllowed : Bool := true
  key : Option KeyStart := none
  /-- The same outside of each open flow collection, innermost first. -/
  outerKeys : List (Option KeyStart) := []
deriving Inhabited

namespace Layout

def inFlow (l : Layout) : Bool := !l.outerKeys.isEmpty

def push (l : Layout) (t : Token) : Layout := { l with tokens := l.tokens.push t }

/-- Adds a token that `n` characters write. -/
def pass (l : Layout) (n : Nat) (t : Token) : Layout :=
  { l with tape := l.tape.forward n, tokens := l.tokens.push t }

def allowKey (l : Layout) (keyAllowed : Bool) : Layout := { l with keyAllowed }

/-- Gives up the place where a key may have started. -/
def dropKey (l : Layout) : Option Layout :=
  if l.key.any (·.required) then none else some { l with key := none }

/-- Notes that a key may start here. In a block a key must stand at the margin. -/
def noteKey (l : Layout) : Option Layout :=
  if !l.keyAllowed then some l
  else do
    let t := l.tape
    let l ← l.dropKey
    return { l with
      key := some ⟨l.tokens.size, !l.inFlow && l.margin = t.column + 1, t.index, t.line, t.column⟩ }

/-- Gives up the places whose colons would come too late. -/
def dropPastKeys (l : Layout) : Option Layout := do
  let key ← KeyStart.stillOpen l.tape l.key
  let outerKeys ← l.outerKeys.mapM (KeyStart.stillOpen l.tape)
  return { l with key, outerKeys }

/-- Opens a block collection at a column right of the margin, with its token as number `n`. -/
def openBlock (l : Layout) (column n : Nat) (t : Token) : Layout :=
  if l.inFlow || column < l.margin then l
  else { l with
    margin := column + 1
    margins := l.margin :: l.margins
    tokens := l.tokens.insertIdxIfInBounds n t }

/-- Closes the block collections that lie right of `floor`. -/
def closeBlocksFrom (floor : Nat) : List Nat → Layout → Layout
  | [], l => { l with margins := [] }
  | m :: ms, l =>
      if floor < l.margin then closeBlocksFrom floor ms ({ l with margin := m }.push .blockEnd)
      else { l with margins := m :: ms }

def closeBlocks (l : Layout) (floor : Nat) : Layout :=
  if l.inFlow then l else closeBlocksFrom floor l.margins l

/-- Passes over blanks, comments and line ends. A byte order mark may start a line; tabs may
not stand where a block collection may start. -/
def toNextTokenFrom : Nat → Layout → Layout
  | 0, l => l
  | fuel + 1, l =>
      let t := l.tape
      let t := if t.column = 0 && t.sees '\ufeff' then t.skip else t
      let t := t.skipWhile fun c => c = ' ' || (c = '\t' && (l.inFlow || !l.keyAllowed))
      let t := if t.sees '#' then t.skipWhile (!isBreak ·) else t
      if t.peek.any isBreak then
        toNextTokenFrom fuel
          { l with tape := t.skipBreak, keyAllowed := l.keyAllowed || !l.inFlow }
      else { l with tape := t }

def toNextToken (l : Layout) : Layout := toNextTokenFrom (l.tape.rest.length + 1) l

/-- Leaves all block collections. -/
def leaveBlocks (l : Layout) : Option Layout := do
  let l ← (l.closeBlocks 0).dropKey
  return l.allowKey false

def directive (l : Layout) : Option Layout := do
  let l ← l.leaveBlocks
  let (d, tape) ← Directive.read l.tape
  return { l with tape }.push (.directive d)

def openFlow (l : Layout) (t : Token) : Option Layout := do
  let l ← l.noteKey
  return ({ l with key := none, outerKeys := l.key :: l.outerKeys }.allowKey true).pass 1 t

def closeFlow (l : Layout) (t : Token) : Option Layout := do
  let l ← l.dropKey
  let l := match l.outerKeys with
    | [] => l
    | key :: outerKeys => { l with key, outerKeys }
  return (l.allowKey false).pass 1 t

def flowEntry (l : Layout) : Option Layout := do
  let l ← l.dropKey
  return (l.allowKey true).pass 1 .flowEntry

/-- Opens a block collection here, where that is allowed. -/
def openBlockHere (l : Layout) (t : Token) : Option Layout :=
  if l.inFlow then some l
  else if l.keyAllowed then some (l.openBlock l.tape.column l.tokens.size t)
  else none

def blockEntry (l : Layout) : Option Layout := do
  let l ← (← l.openBlockHere .blockSequenceStart).dropKey
  return (l.allowKey true).pass 1 .blockEntry

/-- A question mark before a key. -/
def markedKey (l : Layout) : Option Layout := do
  let l ← (← l.openBlockHere .blockMappingStart).dropKey
  return (l.allowKey !l.inFlow).pass 1 .key

/-- A colon, which makes a key of what started at the noted place. -/
def value (l : Layout) : Option Layout :=
  match l.key with
  | some k =>
      let l := { l with key := none, tokens := l.tokens.insertIdxIfInBounds k.number .key }
      some (((l.openBlock k.column k.number .blockMappingStart).allowKey false).pass 1 .value)
  | none => do
      let l ← l.openBlockHere .blockMappingStart
      return (l.allowKey !l.inFlow).pass 1 .value

/-- Something that may be a key or start one. -/
def startOfKey (l : Layout) (read : Tape → Option (Token × Tape)) : Option Layout := do
  let l := (← l.noteKey).allowKey false
  let (t, tape) ← read l.tape
  return { l with tape }.push t

def blockScalar (l : Layout) (style : ScalarStyle) : Option Layout := do
  let l := (← l.dropKey).allowKey true
  let (s, tape) ← Scalar.block style l.margin l.tape
  return { l with tape }.push (.scalar s)

def plainScalar (l : Layout) : Option Layout := do
  let l := (← l.noteKey).allowKey false
  let (s, broken, tape) ← Scalar.plain l.inFlow l.margin l.tape
  return ({ l with tape }.allowKey broken).push (.scalar s)

/-- Marks that start something else than a plain scalar. -/
def indicators : List Char := "-?:,[]\x7b\x7d#&*!|>'\"%@\x60".toList

/-- Whether a plain scalar starts with `c`, which `next` follows. -/
def startsPlain (inFlow : Bool) (c : Char) (next : Option Char) : Bool :=
  !(isBlank c || isBreak c || indicators.contains c)
    || (c = '-' && !next.any isBlank)
    || (!inFlow && (c = '?' || c = ':') && !endsWord next)

/-- The token that starts with `c` at a place where no document mark stands. -/
def token (l : Layout) (c : Char) : Option Layout :=
  let next := l.tape.rest[1]?
  let marks := l.inFlow || endsWord next
  match c with
  | '[' => l.openFlow .flowSequenceStart
  | '\x7b' => l.openFlow .flowMappingStart
  | ']' => l.closeFlow .flowSequenceEnd
  | '\x7d' => l.closeFlow .flowMappingEnd
  | ',' => l.flowEntry
  | '*' => l.startOfKey fun t => (readAnchor t).map fun (name, t) => (.aliasOf name, t)
  | '&' => l.startOfKey fun t => (readAnchor t).map fun (name, t) => (.anchor name, t)
  | '!' => l.startOfKey fun t => (Tag.read l.inFlow t).map fun (tag, t) => (.tag tag, t)
  | '\'' => l.startOfKey fun t => (Scalar.quoted c t).map fun (s, t) => (.scalar s, t)
  | '"' => l.startOfKey fun t => (Scalar.quoted c t).map fun (s, t) => (.scalar s, t)
  | _ =>
      if c = '-' && endsWord next then l.blockEntry
      else if c = '?' && marks then l.markedKey
      else if c = ':' && marks then l.value
      else if c = '|' && !l.inFlow then l.blockScalar .literal
      else if c = '>' && !l.inFlow then l.blockScalar .folded
      else if startsPlain l.inFlow c next then l.plainScalar
      else none

/-- Cuts the rest of the text, of at most `fuel` tokens. -/
def run : Nat → Layout → Option Layout
  | 0, _ => none
  | fuel + 1, l => do
      let l ← l.toNextToken.dropPastKeys
      let l := l.closeBlocks (l.tape.column + 1)
      match l.tape.peek with
      | none => return (← l.leaveBlocks).push .finish
      | some c =>
          if l.tape.column = 0 && c = '%' then run fuel (← l.directive)
          else if l.tape.seesRule '-' then run fuel ((← l.leaveBlocks).pass 3 .documentStart)
          else if l.tape.seesRule '.' then run fuel ((← l.leaveBlocks).pass 3 .documentEnd)
          else run fuel (← l.token c)

end Layout

/-- The tokens of a text; none if it cannot be cut into tokens. -/
def tokenize? (text : String) : Option (List Token) :=
  let chars := text.toList
  if chars.all isAllowed then
    (Layout.run (chars.length + 2) { tape := { rest := chars } }).map (·.tokens.toList)
  else none

end Arbor.Yaml
