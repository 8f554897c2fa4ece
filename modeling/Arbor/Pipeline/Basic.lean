import Arbor.Forest.Passes
import Arbor.Pipeline.Config
import Arbor.Token.Stream
import Arbor.Transform.Engine

/-!
From text to tree in two stages. The first stage cuts the text into tokens and parses them; the
second one maps the parse tree to nodes, links them, and completes them as the language asks.
Problems of the text become issues. Only a lexer or parser that cannot be made, or a
transformation that fails, yields no result.
-/
namespace Arbor

inductive PipelineError where
  | lexer (reason : String)
  | parser (reason : String)
  | io (path reason : String)
  | transform (cause : TransformError)
deriving DecidableEq

namespace PipelineError

/-- The name of the case, for tools; a cause stands behind the case that wraps it. -/
def code : PipelineError → String
  | .lexer _ => "Lexer"
  | .parser _ => "Parser"
  | .io .. => "Io"
  | .transform cause => "Transform/" ++ cause.code

def message : PipelineError → String
  | .lexer reason => "Cannot create lexer: " ++ reason
  | .parser reason => "Cannot create parser: " ++ reason
  | .io path reason => "IO error reading '" ++ path ++ "': " ++ reason
  | .transform cause => cause.message

/-- The message before the explanations behind it. -/
def failure (e : PipelineError) : Failure :=
  match e with
  | .transform cause => cause.failure
  | .io _ reason => ⟨e.message, [reason]⟩
  | _ => ⟨e.message, []⟩

end PipelineError

/-- What a rule of a grammar makes of a token stream. -/
structure RuleResult where
  /-- None if there is no such rule, or it does not match at all. -/
  root : Option ParseNode
  issues : List Issue
  tokens : TokenStream

structure FrontEnd where
  /-- The entry rule first. -/
  ruleNames : List String
  parseRule : String → TokenStream → RuleResult

structure Language where
  /-- All tokens of a text, hidden ones included, and the lexical issues. -/
  tokenize : String → Except PipelineError (List Token × List Issue)
  frontEnd : Except PipelineError FrontEnd
  mapping : Transformer
  /-- Runs on a finished tree and reports issues. -/
  postProcess : NodeId → Forest → List Issue × Forest := fun _ f => ([], f)

structure LexingResult where
  code : String
  tokens : List Token
  issues : List Issue

structure FirstStage where
  code : String
  root : Option ParseNode
  issues : List Issue
  tokenCount : Nat
  /-- Whether the time of lexing was asked for. -/
  lexingTimed : Bool

structure ParsingResult where
  code : String
  root : Option NodeId
  /-- Issues of the first stage, of the mapping and of the completion. -/
  issues : List Issue
  firstStage : FirstStage

def LexingResult.correct (r : LexingResult) : Bool := Issue.noneBlocking r.issues
def FirstStage.correct (r : FirstStage) : Bool := Issue.noneBlocking r.issues
def ParsingResult.correct (r : ParsingResult) : Bool := Issue.noneBlocking r.issues

def FirstStage.parseNodeCount (r : FirstStage) : Nat := (r.root.map (·.nodeCount)).getD 0

/-- The number of nodes of the tree. -/
def ParsingResult.nodeCount (r : ParsingResult) (f : Forest) : Nat :=
  (r.root.map fun root => (f.walk root).length).getD 0

namespace Language

/-- Runs the entry rule, if the parser has one. -/
def invokeEntryRule (frontEnd : FrontEnd) (tokens : TokenStream) : RuleResult :=
  match frontEnd.ruleNames.head? with
  | none => ⟨none, [], tokens⟩
  | some entry => frontEnd.parseRule entry tokens

/-- An issue where parsing stopped before the end. -/
def unconsumed (tokens : TokenStream) : List Issue :=
  if tokens.atEof then []
  else [.syntactic "whole input not consumed" (tokens.last?.map fun t => t.stop.toPosition)]

/-- An issue for every error marker of a tree. -/
def markerIssues (root : Option ParseNode) : List Issue :=
  ((root.map (·.errorMarkers)).getD []).map fun m =>
    .syntactic "error node found" (some m.position)

def parseFirstStage (l : Language) (input : String) (timed : Bool) :
    Except PipelineError FirstStage := do
  let (tokens, lexical) ← l.tokenize input
  let frontEnd ← l.frontEnd
  let parsed := invokeEntryRule frontEnd (.ofTokens input tokens)
  return {
    code := input
    root := parsed.root
    issues := lexical ++ parsed.issues ++ unconsumed parsed.tokens ++ markerIssues parsed.root
    tokenCount := tokens.length
    lexingTimed := timed }

/-- Links, completion and, if they are not wanted, removal of positions. -/
def finish (l : Language) (track : Bool) (root : NodeId) (f : Forest) : List Issue × Forest :=
  let (issues, f) := l.postProcess root (f.assignParents root)
  (issues, if track then f else f.clearPositions root)

/-- Text to tree. Every level of sources is a level of rule nodes, which bounds the depth. -/
def parseWith (l : Language) (input : String) (config : PipelineConfig) (w : Workshop) :
    Except PipelineError ParsingResult × Workshop :=
  match l.parseFirstStage input config.measureLexingTime with
  | .error e => (.error e, w)
  | .ok first =>
      match first.root with
      | none => (.ok ⟨input, none, first.issues, first⟩, w)
      | some tree =>
          match l.mapping.mapTree (tree.nodeCount + 1) tree w with
          | (.error e, _, w) => (.error (.transform e), w)
          | (.ok none, mapped, w) => (.ok ⟨input, none, first.issues ++ mapped, first⟩, w)
          | (.ok (some root), mapped, w) =>
              let (completed, forest) := l.finish config.trackPositions root w.world.forest
              (.ok ⟨input, some root, first.issues ++ mapped ++ completed, first⟩,
                { w with world := { w.world with forest } })

def parse (l : Language) (input : String) (w : Workshop) :
    Except PipelineError ParsingResult × Workshop :=
  l.parseWith input {} w

/-- The tokens of a text. A list that does not end with the end of the input gets a warning. -/
def lex (l : Language) (input : String) (onlyDefault : Bool) :
    Except PipelineError LexingResult := do
  let (tokens, issues) ← l.tokenize input
  let warning : List Issue :=
    if tokens.getLast?.any (·.isEof) then []
    else [{
      kind := .syntactic
      message := "lexer did not reach end of input"
      severity := .warning
      position := tokens.getLast?.map fun t => t.stop.toPosition }]
  return ⟨input, if onlyDefault then tokens.filter (·.isDefault) else tokens, issues ++ warning⟩

end Language

end Arbor
