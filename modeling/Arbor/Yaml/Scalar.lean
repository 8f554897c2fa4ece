import Arbor.Yaml.Tape

/-!
Scalars of YAML: plain words, quoted texts, and blocks of lines. In plain and quoted scalars a
line end is folded: one becomes a blank, and of more the first is dropped.
-/
namespace Arbor.Yaml

/-- How a scalar is written. -/
inductive ScalarStyle where
  | plain
  | quoted
  | literal
  | folded
deriving DecidableEq, Inhabited

structure Scalar where
  style : ScalarStyle
  text : String
deriving DecidableEq, Inhabited

/-- A scalar of which nothing is written. -/
def Scalar.empty : Scalar := ⟨.plain, ""⟩

/-- Blanks and line ends between two words. -/
structure Gap where
  /-- Blanks before the first line end. -/
  blanks : List Char := []
  /-- Whether there is a line end. -/
  broken : Bool := false
  first : List Char := []
  /-- Line ends after the first. -/
  more : List Char := []
deriving DecidableEq, Inhabited

namespace Gap

/-- What a gap is read as. -/
def fold (g : Gap) : List Char :=
  if !g.broken then g.blanks
  else if g.first ≠ ['\n'] then g.first ++ g.more
  else if g.more.isEmpty then [' ']
  else g.more

/-- Reads on in a gap. A line must not be indented by tabs below `floor`. -/
def read (floor : Nat) : Nat → Gap → Tape → Option (Gap × Tape)
  | 0, g, t => some (g, t)
  | fuel + 1, g, t =>
      match t.peek with
      | none => some (g, t)
      | some c =>
          if isBlank c then
            if g.broken && t.column < floor && c = '\t' then none
            else read floor fuel (if g.broken then g else { g with blanks := g.blanks ++ [c] }) t.skip
          else if isBreak c then
            let (text, t) := t.readBreak
            read floor fuel
              (if g.broken then { g with more := g.more ++ text }
                else { g with broken := true, first := text }) t
          else some (g, t)

end Gap

namespace Scalar

/-- Marks that end a plain scalar inside a flow collection. -/
def isFlowMark (c : Char) : Bool :=
  c = ',' || c = '[' || c = ']' || c = '\x7b' || c = '\x7d'

/-- The next word of a plain scalar. Inside a flow collection a colon right before a mark is an
error. -/
def plainWord (inFlow : Bool) : List Char → Option (List Char)
  | [] => some []
  | c :: rest =>
      if isBlank c || isBreak c then some []
      else if inFlow && c = ':' && rest.head?.any (fun d => isFlowMark d || d = '?') then none
      else if (c = ':' && endsWord rest.head?) || (inFlow && isFlowMark c) then some []
      else (plainWord inFlow rest).map (c :: ·)

/-- Reads on in a plain scalar after `out` and a gap. The answer tells too whether a line end was
passed behind the last word. -/
def plainFrom (inFlow : Bool) (margin : Nat) :
    Nat → List Char → Gap → Tape → Option (List Char × Bool × Tape)
  | 0, _, _, _ => none
  | fuel + 1, out, g, t =>
      if t.seesDocumentMark || t.sees '#' then some (out, g.broken, t)
      else
        match plainWord inFlow t.rest with
        | none => none
        | some [] => some (out, g.broken, t)
        | some word =>
            let out := out ++ g.fold ++ word
            let t := t.forward word.length
            match Gap.read margin (t.rest.length + 1) {} t with
            | none => none
            | some (g, t) =>
                if g = {} then some (out, false, t)
                else if !inFlow && t.column < margin then some (out, g.broken, t)
                else plainFrom inFlow margin fuel out g t

/-- Reads a plain scalar. In a block it lies right of the margin. -/
def plain (inFlow : Bool) (margin : Nat) (t : Tape) : Option (Scalar × Bool × Tape) :=
  (plainFrom inFlow margin (t.rest.length + 1) [] {} t).map fun (out, broken, t) =>
    (⟨.plain, String.ofList out⟩, broken, t)

/-- The number that hexadecimal digits write. -/
def hexNumber? (digits : List Char) : Option Nat :=
  digits.foldlM (fun n c => (hexValue? c).map (16 * n + ·)) 0

/-- The character with the number that the next `count` digits write. -/
def numbered? (count : Nat) (cs : List Char) : Option Char := do
  let digits := cs.take count
  let n ← hexNumber? digits
  if digits.length = count && n.isValidChar then some (Char.ofNat n) else none

/-- The character that an escape sequence stands for, and how many characters it has behind the
backslash. -/
def escape? : List Char → Option (Char × Nat)
  | [] => none
  | 'x' :: rest => (numbered? 2 rest).map (·, 3)
  | 'u' :: rest => (numbered? 4 rest).map (·, 5)
  | 'U' :: rest => (numbered? 8 rest).map (·, 9)
  | c :: _ =>
      (List.lookup c [('0', '\x00'), ('a', '\x07'), ('b', '\x08'), ('t', '\t'), ('\t', '\t'),
        ('n', '\n'), ('v', '\x0b'), ('f', '\x0c'), ('r', '\r'), ('e', '\x1b'), (' ', ' '),
        ('"', '"'), ('/', '/'), ('\\', '\\'), ('N', '\x85'), ('_', '\xa0'), ('L', '\u2028'),
        ('P', '\u2029')]).map (·, 1)

/-- The next word of a quoted scalar, up to the closing quote if it comes. The answer tells too
whether an escaped line end was passed behind it. -/
def quotedWord (quote : Char) : Nat → Tape → Option (List Char × Bool × Tape)
  | 0, _ => none
  | fuel + 1, t =>
      let continue' (c : Char) (n : Nat) : Option (List Char × Bool × Tape) :=
        (quotedWord quote fuel (t.forward n)).map fun (word, more) => (c :: word, more)
      match t.rest with
      | [] => some ([], false, t)
      | c :: rest =>
          if isBlank c || isBreak c then some ([], false, t)
          else if c = quote then
            if quote = '\'' && rest.head? = some '\'' then continue' c 2 else some ([], false, t)
          else if quote = '"' && c = '\\' then
            if rest.head?.any isBreak then some ([], true, t.skip.skipBreak)
            else match escape? rest with
              | some (c, n) => continue' c (n + 1)
              | none => none
          else continue' c 1

/-- Reads on in a quoted scalar after `out`, up to the closing quote. -/
def quotedFrom (quote : Char) : Nat → List Char → Tape → Option (List Char × Tape)
  | 0, _, _ => none
  | fuel + 1, out, t =>
      if t.seesDocumentMark || t.rest.isEmpty then none
      else
        match quotedWord quote (t.rest.length + 1) t with
        | none => none
        | some (word, escaped, t) =>
            let out := out ++ word
            if t.sees quote then some (out, t.skip)
            else
              match Gap.read 0 (t.rest.length + 1) { broken := escaped } t with
              | none => none
              | some (g, t) => quotedFrom quote fuel (out ++ g.fold) t

/-- Reads a scalar between quotes. -/
def quoted (quote : Char) (t : Tape) : Option (Scalar × Tape) :=
  (quotedFrom quote (t.rest.length + 1) [] t.skip).map fun (out, t) =>
    (⟨.quoted, String.ofList out⟩, t)

/-- What becomes of the line ends behind the last line of a block. -/
inductive Chomping where
  | strip
  | clip
  | keep
deriving DecidableEq, Inhabited

namespace Chomping

def ofChar? : Char → Option Chomping
  | '+' => some .keep
  | '-' => some .strip
  | _ => none

end Chomping

/-- How much deeper than its surroundings a block says it is indented. -/
def increment? (c : Char) : Option Nat := if c.isDigit then some (c.toNat - 48) else none

/-- What is written behind the mark of a block, in either order: chomping, the increment or zero
for none, and how many characters that takes. -/
def blockHeader (cs : List Char) : Option (Chomping × Nat × Nat) :=
  let nonzero (n : Nat) (a : Chomping × Nat × Nat) := if n = 0 then none else some a
  match cs.head?.bind Chomping.ofChar?, cs.head?.bind increment? with
  | some chomping, _ =>
      match cs[1]?.bind increment? with
      | some n => nonzero n (chomping, n, 2)
      | none => some (chomping, 0, 1)
  | none, some n =>
      match cs[1]?.bind Chomping.ofChar? with
      | some chomping => nonzero n (chomping, n, 2)
      | none => nonzero n (.clip, n, 1)
  | none, none => some (.clip, 0, 0)

/-- Passes over indentation and empty lines, and reads their ends. A line is indented up to
`indent`, or as far as it is when that is zero; the answer has the deepest column seen. -/
def blockGapFrom (indent : Nat) : Nat → Nat → List Char → Tape → Option (List Char × Nat × Tape)
  | 0, deepest, out, t => some (out, deepest, t)
  | fuel + 1, deepest, out, t =>
      let blanks := (t.rest.takeWhile (· = ' ')).length
      let t := t.forward (if indent = 0 then blanks else min blanks (indent - t.column))
      let deepest := max deepest t.column
      if (indent = 0 || t.column < indent) && t.sees '\t' then none
      else if t.peek.any isBreak then
        let (text, t) := t.readBreak
        blockGapFrom indent fuel deepest (out ++ text) t
      else some (out, deepest, t)

/-- Passes over indentation and empty lines. An indentation that is not known yet is the deepest
of them, but right of the margin and at least one. -/
def blockGap (margin indent : Nat) (t : Tape) : Option (List Char × Nat × Tape) :=
  (blockGapFrom indent (t.rest.length + 1) 0 [] t).map fun (out, deepest, t) =>
    (out, if indent = 0 then max (max deepest margin) 1 else indent, t)

/-- The lines of a block so far, and the line ends behind the last one. -/
structure BlockText where
  text : List Char := []
  /-- The end of the last line. -/
  ending : List Char := []
  /-- The ends of empty lines behind it. -/
  empties : List Char := []
  /-- Whether the last line started with a blank, so that its end is not folded. -/
  indented : Bool := false
deriving DecidableEq, Inhabited

namespace BlockText

/-- The text up to a new line. -/
def before (b : BlockText) (style : ScalarStyle) (indented : Bool) : List Char :=
  let folds := style = .folded && b.ending = ['\n'] && !b.indented && !indented
  let joint := if !folds then b.ending else if b.empties.isEmpty then [' '] else []
  b.text ++ joint ++ b.empties

def chomp (b : BlockText) : Chomping → List Char
  | .strip => b.text
  | .clip => b.text ++ b.ending
  | .keep => b.text ++ b.ending ++ b.empties

end BlockText

/-- Reads the lines of a block that are indented by `indent`. -/
def blockLines (style : ScalarStyle) (indent : Nat) :
    Nat → BlockText → Tape → Option (BlockText × Tape)
  | 0, b, t => some (b, t)
  | fuel + 1, b, t =>
      if t.column ≠ indent || t.rest.isEmpty then some (b, t)
      else
        let indented := t.peek.any isBlank
        let (line, t) := t.span (!isBreak ·)
        let (ending, t) := t.readBreak
        match blockGap 0 indent t with
        | none => none
        | some (empties, _, t) =>
            blockLines style indent fuel
              ⟨b.before style indented ++ line, ending, empties, indented⟩ t

/-- Reads a block of lines behind its mark. -/
def block (style : ScalarStyle) (margin : Nat) (t : Tape) : Option (Scalar × Tape) := do
  let t := t.skip
  let (chomping, increment, used) ← blockHeader t.rest
  let t ← (t.forward used).finishLine
  let indent := if increment = 0 then 0 else margin - 1 + increment
  let (empties, indent, t) ← blockGap margin indent t
  let (b, t) ← blockLines style indent (t.rest.length + 1) { empties } t
  return (⟨style, String.ofList (b.chomp chomping)⟩, t)

end Scalar

end Arbor.Yaml
