/-!
Names of node types: a package and a name in it. The printed form joins them by a point, so
two different names may print alike; tables are keyed by the pair.
-/
namespace Arbor

structure QualifiedName where
  package : String
  name : String
deriving DecidableEq, Inhabited

namespace QualifiedName

/-- The name alone in the empty package. -/
def display (q : QualifiedName) : String :=
  if q.package.isEmpty then q.name else q.package ++ "." ++ q.name

/-- Names are ordered by package, then by name. -/
def le (p q : QualifiedName) : Bool :=
  p.package < q.package || (p.package = q.package && (p.name < q.name || p.name = q.name))

end QualifiedName

end Arbor
