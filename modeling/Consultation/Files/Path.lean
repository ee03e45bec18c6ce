namespace Consultation

namespace Path

/-- A path that starts at the top of all directories. -/
def isAbsolute (path : String) : Bool := path.toList.head? == some '/'

/-- The parts of a path between slashes. -/
def parts (path : String) : List String := (path.toList.splitOn '/').map String.ofList

/-- Whether a part of a path leads on: an empty part and a single dot lead from
    a directory to itself. -/
def leadsOn (part : String) : Bool := part != "" && part != "."

/-- The parts of a path that lead on. -/
def steps (path : String) : List String := (parts path).filter leadsOn

/-- The most bytes that one part of a path may have. -/
def longestPart : Nat := 255

/-- The most bytes that a whole path may have. -/
def longestPath : Nat := 4095

/-- Whether there can be anything at a path. The null character ends a path
    where it is handed to the system, so that none can hold it, and names
    beyond the longest are never given. -/
def isAdmissible (path : String) : Bool :=
  !path.toList.contains (Char.ofNat 0) && path.utf8ByteSize ≤ longestPath &&
    (parts path).all (·.utf8ByteSize ≤ longestPart)

/-- The last part of a path, if it names a file. -/
def fileName? (path : String) : Option String :=
  match (steps path).getLast? with
  | some name => if name == ".." then none else some name
  | none => none

/-- What follows the last dot of the file name. A dot at the start of the name
    begins no extension. -/
def extension? (path : String) : Option String := do
  let name ← fileName? path
  let reversed := name.toList.reverse
  let stem := (reversed.dropWhile (· != '.')).drop 1
  if stem.isEmpty then none
  else return String.ofList (reversed.takeWhile (· != '.')).reverse

/-- A path without what follows its last step: slashes, and dots that stand
    alone after a slash. Characters are in reverse order. -/
def dropTail : List Char → List Char
  | '/' :: rest => dropTail rest
  | '.' :: '/' :: rest => dropTail rest
  | chars => chars

/-- The path of the directory that a path lies in, as far as the path says. -/
def parent? (path : String) : Option String :=
  let named := dropTail path.toList.reverse
  let directory := dropTail (named.dropWhile (· != '/'))
  if named.isEmpty then none
  else if directory.isEmpty then some (if isAbsolute path then "/" else "")
  else some (String.ofList directory.reverse)

end Path

end Consultation
