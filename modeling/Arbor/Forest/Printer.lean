import Arbor.Forest.Walk

/-!
Printed trees. `print` gives a line to every node and every property that is set, indented by
their depth; the listings show nodes, origins and references as nested terms.
-/
namespace Arbor

namespace Forest

def indentation (depth : Nat) : String := String.join (List.replicate depth "  ")

/-- The lines of a node `depth` levels deep, through at most `fuel` levels. -/
def printWithin (f : Forest) : Nat → Nat → NodeId → String
  | 0, _, _ => ""
  | fuel + 1, depth, id =>
      match f.node? id with
      | none => ""
      | some n =>
          let place := ((f.position id).map fun r => " [" ++ r.display ++ "]").getD ""
          let line (text : String) : String := indentation (depth + 1) ++ text ++ "\n"
          let below (c : NodeId) : String := printWithin f fuel (depth + 2) c
          indentation depth ++ n.typeName ++ place ++ "\n" ++
            String.join (n.properties.map fun (p, s) =>
              match s with
              | .absent => ""
              | .value v => line (p.name ++ " = " ++ v.display)
              | .reference r => line (p.name ++ " -> " ++ r.name)
              | .child c => line (p.name ++ ":") ++ below c
              | .children cs =>
                  line (p.name ++ ": [" ++ toString cs.length ++ "]") ++ String.join (cs.map below))

/-- The tree under `id`, one node or property a line. -/
def print (f : Forest) (id : NodeId) : String := f.printWithin (f.size + 1) 0 id

def referenceListing (f : Forest) (r : Reference) : String :=
  Text.fields "ReferenceByName" [
    ("name", Text.quoted r.name),
    ("resolved", Text.truth (f.target? r).isSome)]

def listingWithin (f : Forest) : Nat → NodeId → String
  | 0, _ => ""
  | fuel + 1, id =>
      match f.node? id with
      | none => ""
      | some n =>
          Text.fields n.qualifiedName.name <|
            ((f.position id).map fun r => ("position", r.listing)).toList ++
            n.properties.filterMap fun (p, s) =>
              match s with
              | .absent => none
              | .value v => some (p.name, Text.applied "Value" v.listing)
              | .reference r => some (p.name, Text.applied "Reference" (f.referenceListing r))
              | .child c => some (p.name, Text.applied "Child" (listingWithin f fuel c))
              | .children cs =>
                  some (p.name, Text.applied "Children"
                    (Text.bracketed (cs.map (listingWithin f fuel))))

/-- The tree under `id` as a nested term. -/
def listing (f : Forest) (id : NodeId) : String := f.listingWithin (f.size + 1) id

def originListing (f : Forest) : Origin → String
  | .synthetic position text =>
      Text.fields "Synthetic" [
        ("position", Text.optional Position.listing position),
        ("text", Text.optional Text.quoted text)]
  | .source s =>
      Text.fields (if s.node?.isSome then "Node" else "Source") [
        ("type", Text.quoted (f.sourceType s)),
        ("position", Text.optional Position.listing (f.sourcePosition s))]

end Forest

end Arbor
