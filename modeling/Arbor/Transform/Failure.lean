import Arbor.Forest.Edit

/-!
Failures of a transformation. What a supplied step reports is a chain of explanations from the
outermost to the root cause; an error of the engine is one of the cases below, and has a chain
too when it passes through a supplied step.
-/
namespace Arbor

/-- An explanation and the explanations behind it, the root cause last. -/
structure Failure where
  message : String
  causes : List String := []
deriving DecidableEq, Inhabited

namespace Failure

def chain (f : Failure) : List String := f.message :: f.causes

/-- The whole chain in one line. -/
def render (f : Failure) : String := ": ".intercalate f.chain

def rootCause (f : Failure) : String := f.causes.getLast?.getD f.message

/-- The failure behind one more explanation. -/
def context (f : Failure) (message : String) : Failure := ⟨message, f.chain⟩

def ofForest (e : ForestError) : Failure := ⟨e.message, []⟩

end Failure

inductive TransformError where
  /-- A collection stands where one source is expected. -/
  | collectionNotExpected
  | noFactory (sourceType : String)
  | construction (sourceType : String) (cause : Failure)
  | cannotFlatten (count : Nat)
  | childWiring (nodeType property : String) (cause : Failure)
  | finalization (nodeType : String) (cause : Failure)
  | forest (cause : ForestError)
  | schema (cause : SchemaError)
  /-- Sources are nested deeper than the engine follows them. -/
  | tooDeep
deriving DecidableEq

namespace TransformError

/-- The name of the case, for tools; a cause stands behind the case that wraps it. -/
def code : TransformError → String
  | .collectionNotExpected => "CollectionNotExpected"
  | .noFactory _ => "NoFactory"
  | .construction .. => "Constructor"
  | .cannotFlatten _ => "CannotFlatten"
  | .childWiring .. => "ChildWiring"
  | .finalization .. => "Finalizer"
  | .forest cause => "Tree/" ++ cause.code
  | .schema cause => "Schema/" ++ cause.code
  | .tooDeep => "TooDeep"

def message : TransformError → String
  | .collectionNotExpected =>
      "Collection where single value expected: transform collections element-wise"
  | .noFactory t => "No node factory registered for source type " ++ t
  | .construction t cause => "Node factory for " ++ t ++ " failed: " ++ cause.render
  | .cannotFlatten n =>
      "Cannot flatten multiple nodes into one (" ++ toString n ++ " produced)"
  | .childWiring t property cause =>
      "Child wiring '" ++ property ++ "' of " ++ t ++ " failed: " ++ cause.render
  | .finalization t cause => "Finalizer for " ++ t ++ " failed: " ++ cause.render
  | .forest e => e.message
  | .schema e => e.message
  | .tooDeep => "sources are nested too deeply"

/-- The failure that an error stands for: its message before the chain that caused it, which
the message has already at its end. -/
def failure (e : TransformError) : Failure :=
  ⟨e.message, match e with
    | .construction _ cause => cause.chain
    | .childWiring _ _ cause => cause.chain
    | .finalization _ cause => cause.chain
    | _ => []⟩

end TransformError

end Arbor
