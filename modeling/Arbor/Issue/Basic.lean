import Arbor.Text.Listing

/-!
Diagnostics. Problems of an input are values that are collected in order; anything above
information blocks the result from counting as correct.
-/
namespace Arbor

/-- The stage that raised an issue. -/
inductive IssueKind where
  | lexical
  | syntactic
  | semantic
deriving DecidableEq, Inhabited

inductive Severity where
  | info
  | warning
  | error
deriving DecidableEq, Inhabited

namespace IssueKind

def name : IssueKind → String
  | .lexical => "Lexical"
  | .syntactic => "Syntactic"
  | .semantic => "Semantic"

def all : List IssueKind := [.lexical, .syntactic, .semantic]

end IssueKind

namespace Severity

def name : Severity → String
  | .info => "Info"
  | .warning => "Warning"
  | .error => "Error"

def all : List Severity := [.info, .warning, .error]

def rank : Severity → Nat
  | .info => 0
  | .warning => 1
  | .error => 2

/-- Information is below warnings, and those below errors. -/
def order (s t : Severity) : Ordering := compare s.rank t.rank

end Severity

/-- A named part of an issue, for tools that phrase messages themselves. -/
structure IssueArg where
  name : String
  value : String
deriving DecidableEq, Inhabited

structure Issue where
  kind : IssueKind
  message : String
  severity : Severity := .error
  position : Option Position := none
  code : Option String := none
  args : List IssueArg := []
deriving DecidableEq, Inhabited

namespace Issue

def lexical (message : String) (position : Option Position) : Issue :=
  { kind := .lexical, message, position }

def syntactic (message : String) (position : Option Position) : Issue :=
  { kind := .syntactic, message, position }

def semantic (message : String) (position : Option Position) : Issue :=
  { kind := .semantic, message, position }

def isBlocking (i : Issue) : Bool := Severity.info.rank < i.severity.rank

def display (i : Issue) : String :=
  "[" ++ i.severity.name ++ "] " ++ i.kind.name
    ++ (i.position.map (" at " ++ ·.display)).getD ""
    ++ (i.code.map fun c => " (" ++ c ++ ")").getD ""
    ++ ": " ++ i.message

/-- Nothing above information. -/
def noneBlocking (issues : List Issue) : Bool := !issues.any isBlocking

end Issue

end Arbor
