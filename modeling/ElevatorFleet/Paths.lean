import ElevatorFleet.Text.Utf8

/-!
# Paths

Why a file cannot be read, as the operating system tells it, and what it says of the
paths at a place where there are directories and no files.
-/
namespace ElevatorFleet

inductive PathFault where
  | notFound
  | isDirectory
  /-- A name on the path, or the path as a whole, is too long. -/
  | tooLong
  | hasZero
deriving DecidableEq, Repr

def PathFault.message : PathFault → String
  | .notFound => "No such file or directory (os error 2)"
  | .isDirectory => "Is a directory (os error 21)"
  | .tooLong => "File name too long (os error 36)"
  | .hasZero => "file name contained an unexpected NUL byte"

namespace Paths

def maxName : Nat := 255

def maxPath : Nat := 4095

/-- The names on a path, in order; empty ones where slashes stand at an end or side by
    side. -/
def names (path : String) : List String := path.splitOn "/"

/-- A name that stays among the directories that are there: nothing, the directory
    itself, or the one above it. -/
def isStep (name : String) : Bool := name = "" || name = "." || name = ".."

/-- Why a path cannot be read where there are directories and no files. The first name
    that would have to be found decides, unless the path as a whole is refused. -/
def fault (path : String) : PathFault :=
  if path.toList.contains '\x00' then .hasZero
  else if maxPath < (utf8 path).length then .tooLong
  else if path = "" then .notFound
  else
    match (names path).find? (!isStep ·) with
    | none => .isDirectory
    | some name => if maxName < (utf8 name).length then .tooLong else .notFound

end Paths
end ElevatorFleet
