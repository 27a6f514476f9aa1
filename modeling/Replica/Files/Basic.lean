import Replica.Files.Path

/-!
What is asked of a file system, and a file system held as a tree of files and directories.
-/

namespace Replica

inductive FileError where
  | notFound
  | notDirectory
  | isDirectory
  | nameTooLong
  | containsNul
  | other (message : String)
  deriving DecidableEq, Repr

def FileError.message : FileError → String
  | .notFound => "No such file or directory (os error 2)"
  | .notDirectory => "Not a directory (os error 20)"
  | .isDirectory => "Is a directory (os error 21)"
  | .nameTooLong => "File name too long (os error 36)"
  | .containsNul => "file name contained an unexpected NUL byte"
  | .other message => message

def Path.check (path : String) : Except FileError Unit :=
  if path.toList.contains (Char.ofNat 0) then .error .containsNul
  else if path = "" then .error .notFound
  else .ok ()

def Path.checkLength (path : String) : Except FileError Unit := do
  Path.check path
  if Path.isTooLong path then .error .nameTooLong else .ok ()

/-- `locate` gives the one path of whatever a path leads to; there are finitely many of them.
`contents` reads a file. -/
structure FileSystem where
  places : List String
  locate : String → Except FileError String
  contents : String → Except FileError String
  locate_mem : ∀ path place, locate path = .ok place → place ∈ places

namespace FileSystem

def find? (fs : FileSystem) (path : String) : Option String :=
  if Path.isTooLong path then none else (fs.locate path).toOption

end FileSystem

abbrev Location := List String

def Location.path (location : Location) : String :=
  "/" ++ "/".intercalate location

structure FileTree where
  files : List (Location × String) := []
  directories : List Location := []
  deriving DecidableEq, Repr

namespace FileTree

def isDirectory (tree : FileTree) (location : Location) : Bool :=
  location.isEmpty || tree.directories.contains location

def file? (tree : FileTree) (location : Location) : Option String :=
  tree.files.lookup location

def locations (tree : FileTree) : List Location :=
  [] :: tree.directories ++ tree.files.map (·.1)

/-- Follows the segments of a path. Each has to be in a directory, also empty ones and `.`. -/
def walk (tree : FileTree) (here : Location) : List String → Except FileError Location
  | [] => .ok here
  | name :: rest =>
    if !tree.isDirectory here then .error .notDirectory
    else if name = "" || name = "." then tree.walk here rest
    else if name = ".." then tree.walk here.dropLast rest
    else if Path.isNameTooLong name then .error .nameTooLong
    else if tree.locations.contains (here ++ [name]) then tree.walk (here ++ [name]) rest
    else .error .notFound

def start (current : Location) (path : String) : Location :=
  if Path.isAbsolute path then [] else current

def resolve (tree : FileTree) (current : Location) (path : String) :
    Except FileError Location := do
  Path.check path
  let location ← tree.walk (start current path) (Path.segments path)
  if tree.locations.contains location then .ok location else .error .notFound

theorem resolve_mem {tree : FileTree} {current location : Location} {path : String}
    (resolved : tree.resolve current path = .ok location) : location ∈ tree.locations := by
  unfold resolve at resolved
  cases checked : Path.check path with
  | error e => simp [checked, bind, Except.bind] at resolved
  | ok =>
    cases walked : tree.walk (start current path) (Path.segments path) with
    | error e => simp [checked, walked, bind, Except.bind] at resolved
    | ok found =>
      simp only [checked, walked, bind, Except.bind] at resolved
      split at resolved
      · rename_i present
        simp only [Except.ok.injEq] at resolved
        exact resolved ▸ by simpa using present
      · simp at resolved

def read (tree : FileTree) (current : Location) (path : String) : Except FileError String := do
  Path.checkLength path
  match tree.file? (← tree.resolve current path) with
  | some text => .ok text
  | none => .error .isDirectory

def system (tree : FileTree) (current : Location) : FileSystem where
  places := tree.locations.map (·.path)
  locate path := (tree.resolve current path).map (·.path)
  contents := tree.read current
  locate_mem path place located := by
    cases resolved : tree.resolve current path with
    | error e => simp [resolved, Except.map] at located
    | ok location =>
      simp only [resolved, Except.map, Except.ok.injEq] at located
      exact located ▸ List.mem_map_of_mem (resolve_mem resolved)

def waysTo (location : Location) : List Location :=
  (List.range (location.length + 1)).map location.take

def addDirectory (tree : FileTree) (location : Location) : FileTree :=
  let missing := (waysTo location).filter fun way => !tree.isDirectory way
  { tree with directories := tree.directories ++ missing }

def setFile (tree : FileTree) (location : Location) (text : String) : FileTree :=
  { tree with files := (location, text) :: tree.files.filter (·.1 != location) }

/-- Writes a file, new or not, into a directory that is there. A path that ends in a slash or in a
directory's name is no file. -/
def write (tree : FileTree) (current : Location) (path text : String) :
    Except FileError FileTree := do
  Path.checkLength path
  let reversed := (Path.segments path).reverse
  match reversed.dropWhile (· == "") with
  | [] => .error .isDirectory
  | name :: parents =>
    let directory ← tree.walk (start current path) parents.reverse
    if !tree.isDirectory directory then .error .notDirectory
    else if reversed.head? == some "" || name = "." || name = ".." then .error .isDirectory
    else if Path.isNameTooLong name then .error .nameTooLong
    else if tree.isDirectory (directory ++ [name]) then .error .isDirectory
    else .ok (tree.setFile (directory ++ [name]) text)

end FileTree

end Replica
