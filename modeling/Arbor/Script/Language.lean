import Arbor.Script.Mapping

/-!
The statement language as a whole. After the mapping, every use of a variable is linked to the
first statement that declares it, and uses without one are reported.
-/
namespace Arbor.Script

/-- The name that a node declares. -/
def declaredName? (f : Forest) (id : NodeId) : Option String :=
  let attribute? (name : String) : Option String :=
    match f.property id name with
    | .ok (some v) => v.asString
    | _ => none
  if f.isKind id Kinds.setStatement then attribute? "variable"
  else if f.isKind id Kinds.inputDeclaration then attribute? "name"
  else none

/-- The first node that declares each name. -/
def declarations (f : Forest) : List NodeId → Table String NodeId
  | nodes => nodes.foldl (fun table id =>
      match declaredName? f id with
      | some name => if table.contains name then table else table.insert name id
      | none => table) ∅

/-- Links one use of a variable, or reports it. -/
def resolveUse (declared : Table String NodeId) (state : List Issue × Forest) (id : NodeId) :
    List Issue × Forest :=
  let (issues, f) := state
  if !f.isKind id Kinds.valueReference then state
  else match f.reference id "variable" with
    | .ok (some r) =>
        match declared.get? r.name with
        | some target =>
            match f.setReference id "variable" { r with target := some target } with
            | .ok f => (issues, f)
            | .error _ => (issues, f)
        | none =>
            (issues ++ [.semantic ("unresolved reference: " ++ r.name) (f.position id)], f)
    | _ => state

/-- Links the uses of variables under `root` and reports those that nothing declares. -/
def resolveReferences (root : NodeId) (f : Forest) : List Issue × Forest :=
  let nodes := f.walk root
  nodes.foldl (resolveUse (declarations f nodes)) ([], f)

/-- The language with the given way to treat what cannot be built. -/
def language (config : TransformerConfig) : Language where
  tokenize text := .ok (tokenize text)
  frontEnd := .ok frontEnd
  mapping := Mapping.transformer Mapping.factories config
  postProcess := resolveReferences

end Arbor.Script
