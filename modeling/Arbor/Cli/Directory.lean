import Arbor.Cli.Run

/-!
A working directory given by the files in and under it, and what a path leads to there. Only
the directory itself is known: what lies around it can be entered, but no name is found there.
-/
namespace Arbor.Cli

/-- Why a path leads to no file. -/
inductive PathError where
  | notFound
  | notDirectory
  | isDirectory
  | nameTooLong
deriving DecidableEq, Inhabited

namespace PathError

/-- The number of the cause. -/
def code : PathError → Nat
  | .notFound => 2
  | .notDirectory => 20
  | .isDirectory => 21
  | .nameTooLong => 36

def reason : PathError → String
  | .notFound => "No such file or directory"
  | .notDirectory => "Not a directory"
  | .isDirectory => "Is a directory"
  | .nameTooLong => "File name too long"

def message (e : PathError) : String := e.reason ++ " (os error " ++ toString e.code ++ ")"

end PathError

structure Directory where
  /-- Each file by the names on the way to it. -/
  files : Table (List String) (Except String String) := ∅

namespace Directory

/-- Whether a name leads nowhere else. -/
def isIdle (name : String) : Bool := name = "" || name = "."

/-- A directory with files at the given paths. -/
def ofFiles (files : List (String × Except String String)) : Directory :=
  ⟨files.foldl (fun t (path, content) =>
    t.insert ((path.splitOn "/").filter fun name => !isIdle name) content) ∅⟩

/-- Whether some file lies under the path. -/
def isDirectory (d : Directory) (path : List String) : Bool :=
  path.isEmpty || d.files.keys.any fun file => path.isPrefixOf file && path ≠ file

/-- Where a walk along a path stands. -/
inductive Place where
  | within (path : List String)
  | around
deriving DecidableEq

namespace Place

/-- One step up. -/
def up : Place → Place
  | .within (name :: rest) => .within (name :: rest).dropLast
  | _ => .around

end Place

/-- The longest name that a file may have, in bytes. -/
def nameLimit : Nat := 255

/-- Follows names from a place to a file. -/
def find (d : Directory) : Place → List String → Except PathError (Except String String)
  | _, [] => .error .isDirectory
  | place, name :: rest =>
      if isIdle name then d.find place rest
      else if name = ".." then d.find place.up rest
      else if nameLimit < name.utf8ByteSize then .error .nameTooLong
      else match place with
        | .around => .error .notFound
        | .within path =>
            let path := path ++ [name]
            match d.files.get? path with
            | some content => if rest.isEmpty then .ok content else .error .notDirectory
            | none => if d.isDirectory path then d.find (.within path) rest else .error .notFound

/-- The content of the file at a path; a path that starts with a slash starts elsewhere. -/
def read (d : Directory) : Files := fun path =>
  let found :=
    if path.isEmpty then .error .notFound
    else d.find (if path.startsWith "/" then .around else .within []) (path.splitOn "/")
  match found with
  | .ok content => content
  | .error e => .error e.message

end Directory

end Arbor.Cli
