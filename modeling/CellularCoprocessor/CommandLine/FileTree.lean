import CellularCoprocessor.CommandLine.Host

/-!
# File trees

A working directory held as a value: the files below it by their paths, and nothing else. A path
is followed part by part, so that a part which is missing, is no directory or is too long is
reported as a system would.
-/

namespace CellularCoprocessor.CommandLine

inductive Content where
  /-- A file; `none` if its bytes are not text. -/
  | file (text : Option String)
  | directory
  deriving DecidableEq

structure FileTree where
  contents : List (List String × Content)

namespace FileTree

/-- Where a path has led to. What is above the working directory holds nothing that can be
named. -/
inductive Place where
  | inside (parts : List String)
  | outside
  | file (text : Option String)

def parts (path : String) : List String :=
  path.splitOn "/"

def nameLimit : Nat := 255

def pathLimit : Nat := 4095

/-- What a name stands for in a directory of the tree. -/
def enter (t : FileTree) (directory : List String) (name : String) : Except ReadFault Place :=
  let path := directory ++ [name]
  match t.contents.find? fun entry => entry.1 == path with
  | some (_, .file text) => .ok (.file text)
  | some (_, .directory) => .ok (.inside path)
  | none =>
    if t.contents.any fun entry => path.isPrefixOf entry.1 then .ok (.inside path)
    else .error .missing

def step (t : FileTree) (place : Place) (part : String) : Except ReadFault Place :=
  match place, part with
  | .file _, _ => .error .notDirectory
  | place, "" => .ok place
  | place, "." => .ok place
  | .inside [], ".." => .ok .outside
  | .inside parts, ".." => .ok (.inside parts.dropLast)
  | .outside, ".." => .ok .outside
  | place, name =>
    if nameLimit < name.utf8ByteSize then .error .nameTooLong
    else match place with
      | .inside parts => t.enter parts name
      | _ => .error .missing

def fetch (t : FileTree) (path : String) : Except ReadFault String :=
  if path.isEmpty then .error .missing
  else if pathLimit < path.utf8ByteSize then .error .nameTooLong
  else
    let start : Place := if path.startsWith "/" then .outside else .inside []
    match (parts path).foldlM t.step start with
    | .ok (.file (some text)) => .ok text
    | .ok (.file none) => .error .notText
    | .ok _ => .error .isDirectory
    | .error fault => .error fault

end FileTree

end CellularCoprocessor.CommandLine
