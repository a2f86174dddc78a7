import Monkey.Stream

/-!
Files and the paths that lead to them. A path is followed name by name, from the working directory or
from the root; the first step that cannot be made decides what is wrong with it. Behind a file no
further step can be made, not even an empty one, so a file's path does not end in a slash.
-/

namespace Monkey

inductive FileTree where
  | file (content : List UInt8)
  | folder (entries : List (String × FileTree))

abbrev Folder := List (String × FileTree)

/-- Where following a path has led: to a file, or to a folder within others, the root last. -/
inductive Location where
  | file (content : List UInt8)
  | folder (inner : Folder) (around : List Folder)

namespace Location

def nameLimit : Nat := 255

def pathLimit : Nat := 4096

def step : Location → String → Except StreamError Location
  | .file _, _ => .error .notDirectory
  | .folder inner around, name =>
    if name = "" ∨ name = "." then .ok (.folder inner around)
    else if name = ".." then
      match around with
      | [] => .ok (.folder inner [])
      | parent :: outer => .ok (.folder parent outer)
    else if nameLimit < name.utf8ByteSize then .error .nameTooLong
    else match inner.lookup name with
      | none => .error .noSuchFile
      | some (.file content) => .ok (.file content)
      | some (.folder entries) => .ok (.folder entries (inner :: around))

def follow (here : Location) : List String → Except StreamError Location
  | [] => .ok here
  | name :: names => do
    let there ← here.step name
    there.follow names

def root : Location → Location
  | .file content => .file content
  | .folder inner around => .folder (around.getLast?.getD inner) []

def content : Location → Except StreamError (List UInt8)
  | .file content => .ok content
  | .folder .. => .error .isDirectory

def read (here : Location) (path : String) : Except StreamError (List UInt8) :=
  if path = "" then .error .noSuchFile
  else if pathLimit ≤ path.utf8ByteSize then .error .nameTooLong
  else do
    let start := if path.startsWith "/" then here.root else here
    let there ← start.follow (path.splitOn "/")
    there.content

end Location

end Monkey
