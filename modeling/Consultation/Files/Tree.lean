import Consultation.Files.Contents
import Consultation.Files.Path

namespace Consultation

/-- The directories and files below the top, by the names that lead to them
    from there, and the directory that is worked in. That one is there, and so
    are those that it lies in. -/
structure FileTree where
  working : List String
  directories : List (List String)
  files : List (List String × ByteArray)

namespace FileTree

/-- The tree with nothing in it but a directory to work in. -/
def empty : FileTree := ⟨["work"], [], []⟩

def isDirectory (tree : FileTree) (place : List String) : Bool :=
  place.isPrefixOf tree.working || place ∈ tree.directories

def isFile (tree : FileTree) (place : List String) : Bool := tree.files.any (·.1 = place)

/-- Where a path starts: at the top, or in the directory that is worked in. -/
def start (tree : FileTree) (path : String) : List String :=
  if Path.isAbsolute path then [] else tree.working

/-- The place that one part of a path names, seen from a directory. Above the
    top there is only the top itself. -/
def follow (place : List String) (part : String) : List String :=
  if !Path.leadsOn part then place
  else if part = ".." then place.dropLast
  else place ++ [part]

/-- Where one part of a path leads from a place, which must be a directory. -/
def enter? (tree : FileTree) (place : List String) (part : String) : Option (List String) :=
  if tree.isDirectory place then some (follow place part) else none

/-- The place that a path names. There may be nothing at it, but what the path
    leads through must be directories. -/
def resolve? (tree : FileTree) (path : String) : Option (List String) :=
  if Path.isAdmissible path then (Path.parts path).foldlM tree.enter? (tree.start path) else none

/-- What is found at a path. -/
def read (tree : FileTree) (path : String) : Contents :=
  match tree.resolve? path with
  | none => .absent
  | some place =>
    if tree.isDirectory place then .directory
    else
      match tree.files.lookup place with
      | some bytes => .file bytes
      | none => .absent

/-- Follows one part of a path, and makes the directory it leads to where there
    is nothing. -/
def makeStep? (state : FileTree × List String) (part : String) :
    Option (FileTree × List String) := do
  let (tree, place) := state
  let next ← tree.enter? place part
  if tree.isDirectory next then return (tree, next)
  else if tree.isFile next then none
  else return ({ tree with directories := next :: tree.directories }, next)

/-- Makes a directory together with the directories it lies in, as far as they
    are missing. A file in the way is left alone. -/
def makeDirectories? (tree : FileTree) (path : String) : Option FileTree :=
  if Path.isAdmissible path then
    (·.1) <$> (Path.parts path).foldlM makeStep? (tree, tree.start path)
  else none

/-- Puts a file at a path, in place of an earlier one. -/
def write? (tree : FileTree) (path : String) (bytes : ByteArray) : Option FileTree := do
  let place ← tree.resolve? path
  if tree.isDirectory place then none
  else return { tree with files := (place, bytes) :: tree.files.filter (·.1 ≠ place) }

end FileTree

end Consultation
