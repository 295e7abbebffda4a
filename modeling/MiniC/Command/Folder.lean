import MiniC.Command.Answer

/-! # A folder held in memory

A flat folder of files, which answers to paths as a folder on disk does. A path is walked part by
part from the folder, or from the root if it starts with a slash. Of what lies outside the folder
only the directories above it are known. -/

namespace MiniC

structure Folder where
  files : List (String × ByteArray)

namespace Folder

/-- Where a walk along a path has led: into the folder, to a directory outside of it, or to a
file. -/
inductive Spot where
  | inside
  | outside
  | file (bytes : ByteArray)

/-- The bytes of the last file given with a name. -/
def get? (f : Folder) (name : String) : Option ByteArray :=
  (f.files.reverse.find? (·.1 == name)).map (·.2)

/-- Goes from a directory to `name` in it. Names have at most 255 bytes. -/
def enter (f : Folder) (spot : Spot) (name : String) : Except ReadFault Spot :=
  if 255 < name.utf8ByteSize then .error .nameTooLong
  else
    match spot, f.get? name with
    | .inside, some bytes => .ok (.file bytes)
    | _, _ => .error .missing

/-- Walks along the parts of a path. An empty part and a single dot stay in a directory, two dots
lead to the one above, and nothing goes on from a file. -/
def walk (f : Folder) : Spot → List String → Except ReadFault Spot
  | spot, [] => .ok spot
  | .file _, _ :: _ => .error .notDirectory
  | spot, part :: more =>
    if part == "" || part == "." then f.walk spot more
    else if part == ".." then f.walk .outside more
    else do f.walk (← f.enter spot part) more

/-- The bytes of the file at a path, seen from inside the folder. Paths have at most 4095 bytes. -/
def read (f : Folder) (path : String) : Except ReadFault ByteArray := do
  if 4095 < path.utf8ByteSize then throw .nameTooLong
  let start := if path.toList.head? = some '/' then .outside else .inside
  match ← f.walk start (path.splitOn "/") with
  | .file bytes => return bytes
  | _ => throw .directory

end Folder

end MiniC
