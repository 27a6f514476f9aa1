import Replica.Text.Segment

/-!
Paths as text, with segments between slashes.
-/

namespace Replica.Path

def segments (path : String) : List String :=
  (Text.segments (· == '/') path.toList).map String.ofList

def isTooLong (path : String) : Bool :=
  4096 ≤ path.utf8ByteSize

def isNameTooLong (name : String) : Bool :=
  255 < name.utf8ByteSize

def isAbsolute (path : String) : Bool :=
  path.toList.head? == some '/'

def within (directory name : String) : String :=
  if isAbsolute name || directory = "" then name else directory ++ "/" ++ name

def beside (base name : String) : String :=
  if isAbsolute name then name
  else String.ofList (base.toList.reverse.dropWhile (· != '/')).reverse ++ name

/-- The last segment of a path, unless it is the root or leads upwards. Empty segments and `.` say
nothing. -/
def fileName? (path : String) : Option String :=
  match ((segments path).filter fun name => name != "" && name != ".").getLast? with
  | some ".." => none
  | last => last

end Replica.Path
