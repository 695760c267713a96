/-!
# Files of a run

What reading a path gives. A path is followed name by name from the directory that the run is in, or
from the top if it begins with a slash: every name but the last has to be that of a directory, and so
has the last one if a slash follows it.
-/

namespace Monkey.Console

/-- Why a file cannot be read. -/
inductive Obstacle where
  /-- There is no such file. -/
  | missing
  /-- The file is somebody else's. -/
  | forbidden
  /-- A file stands where the path needs a directory. -/
  | notADirectory
  /-- The path is that of a directory. -/
  | directory
  /-- A name in the path, or the path, is too long. -/
  | tooLong
  /-- Something else, in the words of the system. -/
  | other (text : String)
  deriving DecidableEq, Repr

/-- The wording of an obstacle. -/
def Obstacle.text : Obstacle → String
  | missing => "No such file or directory (os error 2)"
  | forbidden => "Permission denied (os error 13)"
  | notADirectory => "Not a directory (os error 20)"
  | directory => "Is a directory (os error 21)"
  | tooLong => "File name too long (os error 36)"
  | other text => text

/-- What comes of reading a file: its bytes, or why there are none. -/
abbrev Reading := Except Obstacle ByteArray

/-- The longest name of a file, in bytes. -/
def longestName : Nat := 255

/-- The longest path, in bytes. -/
def longestPath : Nat := 4095

/-- Files and directories, each under the names that lead to it from the top. -/
structure Files where
  /-- The files with their contents. -/
  contents : List (List String × ByteArray)
  /-- The directories below the top. -/
  directories : List (List String)
  /-- The directory that the run is in. -/
  home : List String

namespace Files

/-- Whether some names lead to a directory. -/
def isDirectory (f : Files) (names : List String) : Bool :=
  names.isEmpty || f.directories.contains names

/-- What comes of following some names from a directory. A dot stays in it, and two dots lead to the
directory above it. -/
def follow (f : Files) (here : List String) : List String → Reading
  | [] => .error .directory
  | name :: rest =>
    if name = "" ∨ name = "." then follow f here rest
    else if name = ".." then follow f here.dropLast rest
    else if longestName < name.utf8ByteSize then .error .tooLong
    else if f.isDirectory (here ++ [name]) then follow f (here ++ [name]) rest
    else
      match f.contents.lookup (here ++ [name]) with
      | none => .error .missing
      | some bytes => if rest.isEmpty then .ok bytes else .error .notADirectory

/-- What comes of reading a path. -/
def read (f : Files) (path : String) : Reading :=
  if longestPath < path.utf8ByteSize then .error .tooLong
  else
    match path.splitOn "/" with
    | "" :: names => f.follow [] names
    | names => f.follow f.home names

end Files

end Monkey.Console
